import PugComponents.Proofs.Expansion.Options
import Mathlib.Data.List.Perm.Basic

/-! The nodes directly below the root of a template. Once the components are known, every such node is
worked on by itself through all passes, and its results stand where it stood; a definition leaves
nothing behind. Siblings therefore do not interfere, and it does not matter where a definition
stands among them. -/

namespace PugComponents

open Node Outcome

namespace Node

variable {call : Node → Recorded (List Node)} {pos : Position} {head : Sequence}

/-- What takes the place of a node of a block whose own blocks are expanded. -/
def replacement (call : Node → Recorded (List Node)) (n : Node) : Option (List Node) :=
  n.callCheck.toOption.bind fun isCall => if isCall then (call n).value? else some [n]

def expansion (call : Node → Recorded (List Node)) (n : Node) : Option (List Node) :=
  (expandNode call n).value?.bind (replacement call)

theorem value?_replaceCalls_eq_gather (ns : List Node) :
    (replaceCalls call ns).value? = gather (replacement call) ns := by
  induction ns with
  | nil => rfl
  | cons n ns ih =>
    rw [replaceCalls, gather_cons, replacement, Run.value?_bind, Run.value?_lift, ← ih,
      Option.bind_assoc]
    refine Option.bind_congr fun isCall _ => ?_
    cases isCall <;> simp [Run.value?_bind]

theorem value?_expandAll_eq_gather (ns : List Node) :
    (expandAll call ns).value? = gather (fun n => (expandNode call n).value?.map ([·])) ns := by
  induction ns with
  | nil => simp only [expandAll, gather_nil, Run.value?_pure]
  | cons n ns ih =>
    simp only [expandAll, gather_cons, Run.value?_bind, Run.value?_pure, ← ih, Option.bind_map]
    rfl

theorem value?_expandBlock_eq_gather (nodes : List Node) :
    (expandBlock call nodes).value? = gather (expansion call) nodes := by
  have each : expansion call = fun n =>
      ((expandNode call n).value?.map ([·])).bind (gather (replacement call)) := by
    funext n
    rw [expansion, Option.bind_map]
    exact congrArg _ (funext fun n' => (gather_singleton n').symm)
  -- The two walks over the nodes, first into all of them and then to the calls, become one.
  rw [each, ← gather_gather, ← value?_expandAll_eq_gather]
  simp only [expandBlock, Run.value?_bind, value?_replaceCalls_eq_gather]

theorem value?_expandNode_seq (nodes : List Node) :
    (expandNode call (.seq pos head nodes)).value? =
      (gather (expansion call) nodes).map (.seq pos head) := by
  rw [← value?_expandBlock_eq_gather]
  simp only [expandNode, expandBlock, Run.value?_bind, Run.value?_pure, Option.map_bind]
  exact Option.bind_congr fun visited _ => Option.map_eq_bind.symm

/-- What stands in the expanded template where a node stood directly below the root. -/
def outcome (call : Node → Recorded (List Node)) (n : Node) : Option (List Node) :=
  ((expansion call n).bind (gather remainder)).bind (gather flattening)

theorem replacement_of_isDefinition {n : Node} (isDefinition : n.isDefinition = true) :
    replacement call n = some [n] := by
  have notCall : n.isCall = false := isCall_eq_false_of_isTagNamed isDefinition (by decide +kernel)
  obtain ⟨pos, ⟨label, _⟩, block, rfl, rfl⟩ := exists_tag_of_isTagNamed isDefinition
  simp [replacement, callCheck, labelFault?, tag?, notCall]

/-- A definition leaves nothing behind, though its body has to be expanded. -/
theorem eq_nil_of_outcome {n : Node} (isDefinition : n.isDefinition = true) {part : List Node}
    (h : outcome call n = some part) : part = [] := by
  simp only [outcome, expansion, Option.bind_eq_some_iff] at h
  obtain ⟨kept, ⟨nodes, ⟨n', run, replaced⟩, left⟩, flat⟩ := h
  -- The tag keeps its name when its body is expanded, so it is no call and is dropped after that.
  have isDefinition' : n'.isDefinition = true := by
    rw [isDefinition_eq_of_tag?_eq (tag?_of_expandNode (Run.value?_eq_some_iff.1 run)), isDefinition]
  rw [replacement_of_isDefinition isDefinition', Option.some.injEq] at replaced
  subst replaced
  rw [gather_singleton, remainder, Option.map_eq_some_iff] at left
  obtain ⟨found, removal, rfl⟩ := left
  have lost := isSome_of_withoutDefinitions (toOption_eq_some_iff.1 removal)
  rw [isDefinition', Bool.not_true, Option.isSome_eq_false_iff, Option.isNone_iff_eq_none] at lost
  subst lost
  simpa [eq_comm] using flat

/-- Nothing at or below the node keeps its children from being looked at. -/
def Filed (n : Node) : Prop := ∀ m ∈ n.walk, m.isDefinition = false → m.isMisfiled = false

def definitions (n : Node) : List Node := n.walk.filter isDefinition

theorem definitions_eq_nil {n : Node} (undefined : n.Lacks isDefinition) : n.definitions = [] := by
  rw [definitions, List.filter_eq_nil_iff]
  intro m hm
  simp [undefined m hm]

end Node

variable {analysis : Definition.Analysis} {config : Config} {reg : Registry} {pos : Position}
  {head : Sequence} {nodes nodes' : List Node} {tree : Node}

/-- The nodes below the root each take their way through all passes by themselves. -/
theorem value?_finish_seq :
    (Session.finish config reg (.seq pos head nodes)).value? =
      (gather (outcome ((Expansion.mk reg config).call [])) nodes).map (.seq pos head) := by
  have passes : outcome ((Expansion.mk reg config).call []) = fun n =>
      ((expansion ((Expansion.mk reg config).call []) n).bind (gather remainder)).bind
        (gather flattening) := rfl
  rw [passes, ← gather_gather, ← gather_gather]
  simp only [Session.finish, Expansion.tree, Run.value?_bind, Run.value?_lift, value?_expandNode_seq]
  cases gather (expansion ((Expansion.mk reg config).call [])) nodes with
  | none => rfl
  | some expanded =>
    simp only [Option.map_some, Option.bind_some, toOption_removeDefinitions_seq]
    cases gather remainder expanded with
    | none => rfl
    | some kept => simp only [Option.map_some, Option.bind_some, toOption_flatten_seq]

theorem detects_seq_iff :
    Detects analysis config (.seq pos head nodes) reg ↔
      (∀ n ∈ nodes, n.Filed) ∧
        List.Forall₂ (Detection.Reads analysis config) (nodes.flatMap definitions) reg.definitions := by
  have walked : (Node.seq pos head nodes).walk = .seq pos head nodes :: nodes.flatMap walk := walk_eq _
  have tags : (Node.seq pos head nodes).walk.filter isDefinition = nodes.flatMap definitions := by
    rw [walked, List.filter_cons_of_neg (by simp [isDefinition, isTagNamed, tag?]), List.filter_flatMap]
    rfl
  constructor
  · rintro ⟨filed, read⟩
    rw [tags] at read
    refine ⟨fun n hn m hm => filed m ?_, read⟩
    exact mem_walk_of_mem_children (n := .seq pos head nodes) hn hm
  · rintro ⟨filed, read⟩
    refine ⟨fun m hm => ?_, tags ▸ read⟩
    rw [walked, List.mem_cons, List.mem_flatMap] at hm
    rcases hm with rfl | ⟨n, hn, hm⟩
    · exact fun _ => rfl
    · exact filed n hn m hm

theorem expand_seq_iff :
    (expand config (.seq pos head nodes) analysis).result = .ok tree ↔
      ∃ reg, Detects analysis config (.seq pos head nodes) reg ∧
        ∃ out, gather (outcome ((Expansion.mk reg config).call [])) nodes = some out ∧
          .seq pos head out = tree := by
  rw [expand_eq_ok_iff]
  simp only [← Run.value?_eq_some_iff, value?_finish_seq, Option.map_eq_some_iff]

theorem detects_append_iff {xs : List Node} (undefined : ∀ n ∈ xs, n.Lacks isDefinition) :
    Detects analysis config (.seq pos head (nodes ++ xs)) reg ↔
      Detects analysis config (.seq pos head nodes) reg ∧ ∀ n ∈ xs, n.Filed := by
  have tags : (nodes ++ xs).flatMap definitions = nodes.flatMap definitions := by
    rw [List.flatMap_append, List.append_right_eq_self, List.flatMap_eq_nil_iff]
    exact fun n hn => definitions_eq_nil (undefined n hn)
  rw [detects_seq_iff, detects_seq_iff, tags, List.forall_mem_append]
  tauto

theorem Detects.unique {reg' : Registry} (h : Detects analysis config (.seq pos head nodes) reg)
    (h' : Detects analysis config (.seq pos head nodes) reg') : reg = reg' :=
  (detects_iff.2 h).2.symm.trans (detects_iff.2 h').2

theorem gather_outcome_append_iff {call : Node → Recorded (List Node)} {defs xs out : List Node}
    (definitions : ∀ d ∈ defs, d.isDefinition = true) :
    gather (outcome call) (defs ++ xs) = some out ↔
      gather (outcome call) defs = some [] ∧ gather (outcome call) xs = some out := by
  have silent : ∀ part, gather (outcome call) defs = some part → part = [] := by
    intro part h
    have others : (defs.filter fun d => !d.isDefinition) = [] := by
      rw [List.filter_eq_nil_iff]
      intro d hd
      simp [definitions d hd]
    have empty := ((gather_eq_some_iff_of_silent (fun _ => eq_nil_of_outcome) defs).1 h).2
    rw [others, gather_nil, Option.some.injEq] at empty
    exact empty.symm
  rw [gather_append_eq_some_iff]
  constructor
  · rintro ⟨first, others, here, there, rfl⟩
    obtain rfl := silent first here
    exact ⟨here, there⟩
  · rintro ⟨here, there⟩
    exact ⟨[], out, here, there, rfl⟩

/-- Siblings do not interfere: behind the definitions of a template, two runs of nodes are expanded
together as they are apart. -/
theorem siblings_of_expand {defs xs ys : List Node}
    (definitions : ∀ d ∈ defs, d.isDefinition = true)
    (undefined : ∀ n ∈ xs ++ ys, n.Lacks isDefinition) :
    (expand config (block pos (defs ++ xs ++ ys)) analysis).result = .ok tree ↔
      ∃ left right, (expand config (block pos (defs ++ xs)) analysis).result = .ok left ∧
        (expand config (block pos (defs ++ ys)) analysis).result = .ok right ∧
        tree = block pos (left.children ++ right.children) := by
  rw [List.forall_mem_append] at undefined
  simp only [block, expand_seq_iff, List.append_assoc, gather_outcome_append_iff definitions]
  constructor
  · rintro ⟨reg, detects, out, ⟨defined, run⟩, rfl⟩
    rw [← List.append_assoc, detects_append_iff undefined.2, detects_append_iff undefined.1] at detects
    obtain ⟨⟨detects, filed⟩, filed'⟩ := detects
    obtain ⟨left, right, here, there, rfl⟩ := gather_append_eq_some_iff.1 run
    refine ⟨.seq pos .plain left, .seq pos .plain right, ?_, ?_, rfl⟩
    · exact ⟨reg, (detects_append_iff undefined.1).2 ⟨detects, filed⟩, left, ⟨defined, here⟩, rfl⟩
    · exact ⟨reg, (detects_append_iff undefined.2).2 ⟨detects, filed'⟩, right, ⟨defined, there⟩, rfl⟩
  · rintro ⟨_, _, ⟨reg, detects, left, ⟨defined, here⟩, rfl⟩, ⟨reg', detects', right, ⟨-, there⟩, rfl⟩,
      rfl⟩
    rw [detects_append_iff undefined.1] at detects
    rw [detects_append_iff undefined.2] at detects'
    -- The definitions alone decide which components there are, so both sides have the same ones.
    obtain rfl := detects.1.unique detects'.1
    refine ⟨reg, ?_, left ++ right, ⟨defined, ?_⟩, rfl⟩
    · rw [← List.append_assoc, detects_append_iff undefined.2, detects_append_iff undefined.1]
      exact ⟨detects, detects'.2⟩
    · exact gather_append_eq_some_iff.2 ⟨left, right, here, there, rfl⟩

def pairTag : Node :=
  plainTag "component" [plainText "Pair()", plainTag "p" [], plainTag "p" []]

theorem siblings_pairTag : ∃ left right tree,
    (expand {} (block {} [pairTag, plainTag "Pair" []])).result = .ok left ∧
    (expand {} (block {} [pairTag, plainTag "hr" [], plainTag "Pair" []])).result = .ok right ∧
    (expand {} (block {} [pairTag, plainTag "Pair" [], plainTag "hr" [], plainTag "Pair" []])).result =
      .ok tree ∧ tree.children = left.children ++ right.children := by
  have undefined : ∀ n ∈ [plainTag "Pair" []] ++ [plainTag "hr" [], plainTag "Pair" []],
      ∀ m ∈ n.walk, m.isDefinition = false := by decide +kernel
  obtain ⟨tree, h⟩ : ∃ tree, (expand {} (block {}
      ([pairTag] ++ [plainTag "Pair" []] ++ [plainTag "hr" [], plainTag "Pair" []]))).result =
        .ok tree := Outcome.exists_ok_of_isOk (by decide +kernel)
  obtain ⟨left, right, here, there, eq⟩ := (siblings_of_expand (by decide +kernel) undefined).1 h
  exact ⟨left, right, tree, here, there, h, eq ▸ rfl⟩

namespace Registry

theorem agrees_of_perm {reg reg' : Registry} (perm : reg.definitions.Perm reg'.definitions) :
    reg.Agrees reg' := by
  intro name
  have same : reg.get? name = reg'.get? name := by
    ext d
    rw [get?_eq_some_iff, get?_eq_some_iff, perm.mem_iff]
  rw [same]
  cases reg'.get? name with
  | none => exact .none
  | some d => exact .some (.refl d)

end Registry

theorem detects_of_perm (perm : nodes.Perm nodes')
    (detects : Detects analysis config (.seq pos head nodes) reg) :
    ∃ reg', Detects analysis config (.seq pos head nodes') reg' ∧ reg.Agrees reg' := by
  rw [detects_seq_iff] at detects
  obtain ⟨filed, read⟩ := detects
  have tags : (nodes'.flatMap definitions).Perm (nodes.flatMap definitions) :=
    perm.symm.flatMap fun _ _ => .refl _
  -- The same definitions are read in another order, and again no name is among them twice.
  obtain ⟨ds, read', same⟩ := List.perm_comp_forall₂ tags read
  have names : (ds.map Definition.name).Nodup := (same.map _).nodup_iff.2 reg.nodup
  refine ⟨⟨ds, names⟩, detects_seq_iff.2 ⟨?_, read'⟩, Registry.agrees_of_perm same.symm⟩
  exact fun n hn => filed n (perm.mem_iff.2 hn)

theorem expand_of_perm (perm : nodes.Perm nodes')
    (order : (nodes.filter fun n => !n.isDefinition) = nodes'.filter fun n => !n.isDefinition)
    (h : (expand config (.seq pos head nodes) analysis).result = .ok tree) :
    (expand config (.seq pos head nodes') analysis).result = .ok tree := by
  obtain ⟨reg, detects, finished⟩ := expand_eq_ok_iff.1 h
  obtain ⟨reg', detects', agrees⟩ := detects_of_perm perm detects
  refine expand_eq_ok_iff.2 ⟨reg', detects', ?_⟩
  rw [← Run.value?_eq_some_iff] at finished ⊢
  rw [← finished, ← value?_finish (c := config) agrees, value?_finish_seq, value?_finish_seq,
    gather_eq_of_perm (fun _ => eq_nil_of_outcome) perm order]

/-- It does not matter where the definitions of a template stand among the other nodes, nor in which
order. -/
theorem definitionOrder_of_expand (perm : nodes.Perm nodes')
    (order : (nodes.filter fun n => !n.isDefinition) = nodes'.filter fun n => !n.isDefinition) :
    (expand config (.seq pos head nodes) analysis).result = .ok tree ↔
      (expand config (.seq pos head nodes') analysis).result = .ok tree :=
  ⟨expand_of_perm perm order, expand_of_perm perm.symm order.symm⟩

def boxTag : Node :=
  plainTag "component" [plainText "Box()", plainTag "div" [plainTag "Pair" []]]

theorem definitionOrder_boxTag : ∃ tree,
    (expand {} (block {} [pairTag, boxTag, plainTag "Box" [], plainTag "Pair" []])).result = .ok tree ∧
    (expand {} (block {} [plainTag "Box" [], boxTag, plainTag "Pair" [], pairTag])).result =
      .ok tree := by
  obtain ⟨tree, h⟩ : ∃ tree, (expand {}
      (block {} [pairTag, boxTag, plainTag "Box" [], plainTag "Pair" []])).result = .ok tree :=
    Outcome.exists_ok_of_isOk (by decide +kernel)
  have perm : [pairTag, boxTag, plainTag "Box" [], plainTag "Pair" []].Perm
      [plainTag "Box" [], boxTag, plainTag "Pair" [], pairTag] :=
    (List.perm_append_singleton pairTag [boxTag, plainTag "Box" [], plainTag "Pair" []]).symm.trans
      (.swap _ _ _)
  exact ⟨tree, h, (definitionOrder_of_expand perm rfl).1 h⟩

end PugComponents

import PugComponents.Proofs.Expansion.Siblings

/-! Expanding what is expanded. Every pass leaves a tree as it is that has nothing for it to do: no calls,
no definitions, and neither resolved files nor plain blocks inside of blocks. An expanded template is
such a tree, so a second expansion changes nothing; and where there are neither calls nor definitions
to begin with, an expansion does no more than flatten. -/

namespace PugComponents

namespace Node

section Calls

variable {call : Node → Recorded (List Node)}

theorem expandOption_eq_self {o : Option Node} (each : ∀ c ∈ o, (expandNode call c).result = .ok c) :
    (expandOption call o).result = .ok o := by
  cases o with
  | none => simp [expandOption]
  | some n => simp [expandOption, Run.result_bind_eq_ok, each n rfl]

theorem expandFile_eq_self {file : Option Node} (isFile : IsFile file)
    (each : ∀ c ∈ ast? file, (expandNode call c).result = .ok c) :
    (expandFile call file).result = .ok file := by
  obtain ⟨n, rfl, isFile, -⟩ := isFile
  cases n with
  | fileReference pos path fullPath ast =>
    have below : (expandOption call ast).result = .ok ast := expandOption_eq_self each
    simp [expandFile, Run.result_bind_eq_ok, below]
  | _ => cases isFile

/-- Where no calls stand below a node, there is nothing to expand. The node itself may be a call, since
only those in blocks are replaced. -/
theorem expandNode_eq_self {n : Node} (wf : n.isWellFormed = true)
    (free : ∀ c ∈ n.children, c.CallFree) : (expandNode call n).result = .ok n := by
  induction n using childInduction with
  | step n ih =>
    have below : ∀ c ∈ n.children, (expandNode call c).result = .ok c := by
      intro c hc
      exact ih c hc (isWellFormed_of_mem_children wf hc) fun d hd => (free c hc).of_mem_children hd
    cases n with
    | leaf => simp [expandNode]
    | seq pos head nodes =>
      have each : ∀ c ∈ nodes, expansion call c = some [c] := by
        intro c hc
        have check := callCheck_of_isWellFormed (isWellFormed_of_mem_children wf hc)
        rw [(lacks_iff.1 (free c hc)).1] at check
        rw [expansion, Run.value?_eq_some_iff.2 (below c hc), Option.bind_some, replacement, check]
        rfl
      rw [← Run.value?_eq_some_iff, value?_expandNode_seq, gather_eq_self each, Option.map_some]
    | owner pos head block =>
      have child := expandOption_eq_self fun c hc => below c (Option.mem_toList.2 hc)
      simp [expandNode, Run.result_bind_eq_ok, child]
    | fork pos head main alternate =>
      simp only [children, List.mem_append, Option.mem_toList] at below
      have first := expandOption_eq_self fun c hc => below c (.inl hc)
      have second := expandOption_eq_self fun c hc => below c (.inr hc)
      simp [expandNode, Run.result_bind_eq_ok, first, second]
    | inclusion pos file block =>
      have tree := expandFile_eq_self (isWellFormed_inclusion.1 wf).2.1
        fun c hc => below c (Option.mem_toList.2 hc)
      simp [expandNode, Run.result_bind_eq_ok, tree]
    | extension pos file =>
      have tree := expandFile_eq_self (isWellFormed_extension.1 wf).2
        fun c hc => below c (Option.mem_toList.2 hc)
      simp [expandNode, Run.result_bind_eq_ok, tree]
    | rawInclusion => simp [expandNode]
    | fileReference => simp [expandNode]

end Calls

end Node

open Node

variable {analysis : Definition.Analysis} {config : Config} {page tree : Node}

theorem detects_empty (wf : page.isWellFormed = true) (undefined : page.Lacks isDefinition) :
    Detects analysis config page Registry.empty := by
  refine ⟨fun n hn _ => isMisfiled_of_isWellFormed (isWellFormed_of_mem_walk wf hn), ?_⟩
  have tags : page.walk.filter isDefinition = [] := definitions_eq_nil undefined
  rw [tags]
  exact .nil

theorem expand_eq_flatten (wf : page.isWellFormed = true) (undefined : page.Lacks isDefinition)
    (free : ∀ c ∈ page.children, c.CallFree) (flattening : page.flatten = .ok tree) :
    (expand config page analysis).result = .ok tree := by
  refine expand_eq_ok_iff.2 ⟨Registry.empty, detects_empty wf undefined, ?_⟩
  simp only [Session.finish, Expansion.tree, Run.result_bind_eq_ok, Run.result_lift]
  exact ⟨page, expandNode_eq_self wf free, page, removeDefinitions_eq_self wf undefined, flattening⟩

theorem callFree_below_of_withoutDefinitions {n n' : Node} (wf : n.isWellFormed = true)
    (h : withoutDefinitions n = .ok (some n')) (free : ∀ c ∈ n.children, c.CallFree) :
    ∀ c ∈ n'.children, c.CallFree := by
  intro m hm
  obtain ⟨c, hc, part, piece, hm⟩ := (withoutDefinitions_eq_ok wf h).exists_piece_of_mem hm
  have kept : ∀ c', withoutDefinitions c = .ok (some c') → c'.CallFree := fun c' run =>
    callFree_of_withoutDefinitions (isWellFormed_of_mem_children wf hc) run (free c hc)
  cases piece with
  | single _ run => exact List.mem_singleton.1 hm ▸ kept _ run
  | listed _ remaining =>
    cases remaining with
    | dropped => cases hm
    | kept _ run => exact List.mem_singleton.1 hm ▸ kept _ run

theorem callFree_below_of_flattenNode {n n' : Node} (wf : n.isWellFormed = true)
    (h : flattenNode false n = .ok n') (free : ∀ c ∈ n.children, c.CallFree) :
    ∀ c ∈ n'.children, c.CallFree := by
  have flat : ∀ c ∈ n.children, ∀ c', flattenNode false c = .ok c' → c'.CallFree := fun c hc c' run =>
    lacks_of_flattenNode (fun _ _ => isCall_eq_of_tag?_eq) (isWellFormed_of_mem_children wf hc) run
      (free c hc)
  intro m hm
  rcases flattenNode_eq_ok wf h with ⟨ast, -, child, run⟩ | ⟨-, built⟩
  · exact (flat ast (by simp [child]) n' run).of_mem_children hm
  · obtain ⟨c, hc, c', run, ⟨rfl, -⟩ | ⟨-, hm⟩⟩ := exists_flat_of_mem built hm
    · exact flat c hc m run
    · exact (flat c hc c' run).of_mem_children hm

theorem expand_eq_self {expanded kept : Node} (wf : page.isWellFormed = true)
    (stages : Stages analysis config page expanded kept tree) (analysis' : Definition.Analysis)
    (config' : Config) : (expand config' tree analysis').result = .ok tree := by
  obtain ⟨wf₁, free₁⟩ := settled_of_expandNode (call_settled wf stages.described) wf stages.expansion
  have wf₂ := (isWellFormed_of_withoutDefinitions wf₁ stages.removal).1
  have wf₃ := (isWellFormed_of_flattenNode wf₂ stages.flattening).1
  have free₂ := callFree_below_of_withoutDefinitions wf₁ stages.removal free₁
  have undefined := lacks_of_flattenNode (fun _ _ => isDefinition_eq_of_tag?_eq) wf₂ stages.flattening
    (lacks_isDefinition_of_withoutDefinitions wf₁ stages.removal)
  refine expand_eq_flatten wf₃ undefined (callFree_below_of_flattenNode wf₂ stages.flattening free₂) ?_
  exact flatten_eq_self wf₃ (lacks_isResolved_of_flattenNode wf₂ stages.flattening)
    (lacks_isNested_of_flattenNode wf₂ stages.flattening)

/-- Where there is nothing to expand, an expansion flattens the template under all options; and there is
nothing to expand in an expanded template, so that it stays as it is. -/
theorem idempotence_of_expand (wf : page.isWellFormed = true) :
    ((∀ n ∈ page.walk, n.isDefinition = false ∧ n.isCall = false) →
      ∃ tree, page.flatten = .ok tree ∧
        ∀ analysis config, (expand config page analysis).result = .ok tree) ∧
    ∀ analysis config tree, (expand config page analysis).result = .ok tree →
      ∀ analysis' config', (expand config' tree analysis').result = .ok tree := by
  constructor
  · intro plain
    have free : page.CallFree := fun n hn => (plain n hn).2
    obtain ⟨tree, run⟩ := exists_flattenNode wf
    refine ⟨tree, run, fun analysis config => ?_⟩
    exact expand_eq_flatten wf (fun n hn => (plain n hn).1) (fun c hc => free.of_mem_children hc) run
  · intro analysis config tree h
    obtain ⟨expanded, kept, stages⟩ := expand_eq_ok h
    exact expand_eq_self wf stages

def includingPage : Node :=
  block {} [.inclusion {} (some (.fileReference {} (.str "part.pug") .null
    (some (block {} [plainTag "p" []])))) none]

theorem idempotence_framedPage :
    (expand {} includingPage).result = .ok (block {} [plainTag "p" []]) ∧
    (expand { mode := .off } includingPage).result = .ok (block {} [plainTag "p" []]) ∧
    ∃ tree, (expand {} framedPage).result = .ok tree ∧ (expand {} tree).result = .ok tree := by
  have wf : includingPage.isWellFormed = true := by decide +kernel
  obtain ⟨tree, run, same⟩ := (idempotence_of_expand wf).1 (by decide +kernel)
  obtain rfl : block {} [plainTag "p" []] = tree := Except.ok.inj (.trans (by rfl) run)
  obtain ⟨framed, h⟩ := exists_expand_framedPage
  refine ⟨same {} {}, same {} { mode := .off }, framed, h, ?_⟩
  exact (idempotence_of_expand (by decide +kernel)).2 {} {} framed h {} {}

end PugComponents

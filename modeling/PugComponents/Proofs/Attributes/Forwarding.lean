import PugComponents.Proofs.Attributes.Injection

/-! Which element the attributes of a call are forwarded to. `Receives` says it without the program: the
one tag at the top of a body that is no slot, if no tag of the body spreads anything and this tag sets
none of the keys that the component takes out of `$attrs`. It is given one spread, and the rest of the
body stays as it was. Only tags count for this: what tags with a computed name and mixins spread is not
looked at. -/

namespace PugComponents

open Node Outcome

theorem Json.beq_str_iff {v : Json} {s : String} : (v == .str s) = true ↔ v = .str s := by
  cases v <;> simp [BEq.beq, Json.same]

/-- The element of a body that attributes are forwarded to, with the nodes before and behind it. -/
structure Receives (usage : Option Usage) (nodes before : List Node) (root : Node) (element : Element)
    (after : List Node) : Prop where
  nodes_eq : nodes = before ++ root :: after
  tag : root.tag? = some element
  notSlot : element.label ≠ .str "slot"
  alone : ∀ n ∈ before ++ after, ∀ other, n.tag? = some other → other.label = .str "slot"
  unspread : ∀ n ∈ nodes, ∀ m ∈ n.walk, ∀ other, m.tag? = some other → other.spreads = []
  free : ∀ keys, usage = some keys → ∀ a ∈ element.attrs, ∀ key ∈ keys.attrs, a.name ≠ .str key

/-- The object of those attributes that a body passes on. -/
def passedOn (usage : Option Usage) : String := if usage.isSome then "$attrs" else "attributes"

namespace Node

variable {n : Node} {element : Element}

theorem isRootElement_iff :
    n.isRootElement = true ↔ ∃ element, n.tag? = some element ∧ element.label ≠ .str "slot" := by
  unfold isRootElement isSlot isTagNamed
  cases n.tag? with
  | none => simp
  | some element => simp [← Json.beq_str_iff]

theorem isRootElement_eq_false_iff :
    n.isRootElement = false ↔ ∀ element, n.tag? = some element → element.label = .str "slot" := by
  rw [← Bool.not_eq_true, isRootElement_iff]
  push Not
  rfl

theorem isSpreading_eq_false_iff :
    n.isSpreading = false ↔ ∀ element, n.tag? = some element → element.spreads = [] := by
  unfold isSpreading
  cases n.tag? <;> simp

theorem setsAny_eq_false_iff (tag : n.tag? = some element) {names : List String} :
    n.setsAny names = false ↔ ∀ a ∈ element.attrs, ∀ name ∈ names, a.name ≠ .str name := by
  obtain ⟨pos, block, rfl⟩ := exists_owner_of_tag? tag
  simp [setsAny, attrs?, ← Json.beq_str_iff]

theorem forward_of_tag? (tag : n.tag? = some element) (unspread : element.spreads = [])
    (source : String) : n.forward source = n.withSpreads [{ val := .str source, pos := n.pos }] := by
  obtain ⟨pos, block, rfl⟩ := exists_owner_of_tag? tag
  simp [forward, spreads?, unspread]

theorem tag?_withSpreads (tag : n.tag? = some element) (spreads : List Spread) :
    (n.withSpreads spreads).tag? = some { element with spreads := spreads } := by
  obtain ⟨pos, block, rfl⟩ := exists_owner_of_tag? tag
  rfl

theorem spreads?_withSpreads (tag : n.tag? = some element) (spreads : List Spread) :
    (n.withSpreads spreads).spreads? = some spreads := by
  obtain ⟨pos, block, rfl⟩ := exists_owner_of_tag? tag
  rfl

theorem label?_withSpreads (n : Node) (spreads : List Spread) :
    (n.withSpreads spreads).label? = n.label? := by
  cases n with
  | owner pos head block => cases head <;> rfl
  | _ => rfl

theorem withSpreads_withSpreads_nil (tag : n.tag? = some element) (unspread : element.spreads = [])
    (spreads : List Spread) : (n.withSpreads spreads).withSpreads [] = n := by
  obtain ⟨pos, block, rfl⟩ := exists_owner_of_tag? tag
  simp [withSpreads, ← unspread]

end Node

section Choice

variable {usage : Option Usage} {nodes before after : List Node} {root : Node} {element : Element}
  {source : String}

namespace Receives

variable (h : Receives usage nodes before root element after)
include h

theorem root_mem : root ∈ nodes := by
  rw [h.nodes_eq]
  simp

theorem spreads_eq : element.spreads = [] :=
  h.unspread root h.root_mem root (self_mem_walk root) element h.tag

theorem isRootElement_root : root.isRootElement = true :=
  isRootElement_iff.2 ⟨element, h.tag, h.notSlot⟩

theorem isSlot_root : root.isSlot = false := by
  have isRoot := h.isRootElement_root
  rw [isRootElement, Bool.and_eq_true, Bool.not_eq_true'] at isRoot
  exact isRoot.2

theorem isRootElement_eq_false {n : Node} (hn : n ∈ before ++ after) : n.isRootElement = false :=
  isRootElement_eq_false_iff.2 (h.alone n hn)

theorem filter_eq : nodes.filter isRootElement = [root] := by
  have others : ∀ ns : List Node, ns ⊆ before ++ after → ns.filter isRootElement = [] := by
    intro ns sub
    rw [List.filter_eq_nil_iff]
    intro n hn
    simp [h.isRootElement_eq_false (sub hn)]
  rw [h.nodes_eq, List.filter_append, others before (List.subset_append_left _ _),
    List.filter_cons_of_pos h.isRootElement_root, others after (List.subset_append_right _ _),
    List.nil_append]

theorem map_forwardAtRoot :
    nodes.map (forwardAtRoot (some source)) =
      before ++ root.withSpreads [{ val := .str source, pos := root.pos }] :: after := by
  have same : ∀ ns : List Node, ns ⊆ before ++ after → ns.map (forwardAtRoot (some source)) = ns := by
    intro ns sub
    refine (List.map_congr_left fun n hn => ?_).trans (List.map_id ns)
    rw [forwardAtRoot, h.isRootElement_eq_false (sub hn)]
    rfl
  have received : forwardAtRoot (some source) root =
      root.withSpreads [{ val := .str source, pos := root.pos }] := by
    rw [forwardAtRoot, if_pos h.isRootElement_root, forward_of_tag? h.tag h.spreads_eq]
  rw [h.nodes_eq, List.map_append, List.map_cons, received, same before (List.subset_append_left _ _),
    same after (List.subset_append_right _ _)]

theorem map_ne : nodes.map (forwardAtRoot (some source)) ≠ nodes := by
  intro same
  have root_eq : root.withSpreads [{ val := .str source, pos := root.pos }] = root := by
    rw [h.map_forwardAtRoot] at same
    have tails := List.append_cancel_left (same.trans h.nodes_eq)
    exact (List.cons.inj tails).1
  have tag := tag?_withSpreads h.tag [{ val := .str source, pos := root.pos }]
  rw [root_eq, h.tag] at tag
  have spreads := congrArg Element.spreads (Option.some.inj tag)
  rw [h.spreads_eq] at spreads
  cases spreads

end Receives

theorem any_isSpreading_eq_false_iff :
    (nodes.any fun n => n.walk.any isSpreading) = false ↔
      ∀ n ∈ nodes, ∀ m ∈ n.walk, ∀ other, m.tag? = some other → other.spreads = [] := by
  simp only [List.any_eq_false, List.any_eq_true, not_exists, not_and, Bool.not_eq_true,
    isSpreading_eq_false_iff]

theorem forwardedFor?_eq_some_iff (tag : root.tag? = some element) :
    forwardedFor? usage root = some source ↔ source = passedOn usage ∧
      ∀ keys, usage = some keys → ∀ a ∈ element.attrs, ∀ key ∈ keys.attrs, a.name ≠ .str key := by
  cases usage with
  | none => simp [forwardedFor?, passedOn, eq_comm]
  | some keys =>
    simp only [Option.some.injEq, forall_eq', ← setsAny_eq_false_iff tag, forwardedFor?, passedOn]
    cases root.setsAny keys.attrs <;> simp [eq_comm]

theorem forwarded?_eq_some_iff :
    forwarded? usage nodes = some source ↔ source = passedOn usage ∧
      ∃ before root element after, Receives usage nodes before root element after := by
  constructor
  · intro h
    unfold forwarded? at h
    split at h
    · cases h
    rename_i unspread
    rw [Bool.not_eq_true, any_isSpreading_eq_false_iff] at unspread
    split at h
    · rename_i root roots
      obtain ⟨before, after, nodes_eq, others, isRoot, rest⟩ := List.filter_eq_cons_iff.1 roots
      obtain ⟨element, tag, notSlot⟩ := isRootElement_iff.1 isRoot
      obtain ⟨rfl, free⟩ := (forwardedFor?_eq_some_iff tag).1 h
      refine ⟨rfl, before, root, element, after, nodes_eq, tag, notSlot, fun n hn => ?_, unspread, free⟩
      rw [← isRootElement_eq_false_iff, ← Bool.not_eq_true]
      rcases List.mem_append.1 hn with hn | hn
      · exact others n hn
      · exact List.filter_eq_nil_iff.1 rest n hn
    · cases h
  · rintro ⟨rfl, before, root, element, after, receives⟩
    have unspread := any_isSpreading_eq_false_iff.2 receives.unspread
    rw [forwarded?, unspread, receives.filter_eq]
    exact (forwardedFor?_eq_some_iff receives.tag).2 ⟨rfl, receives.free⟩

end Choice

section Around

variable {usage : Option Usage} {pos : Position} {nodes opening closing out : List Node}
  {component : String}

theorem IsStatement.walk_eq {n : Node} (h : IsStatement pos n) : n.walk = [n] := by
  obtain ⟨source, rfl⟩ := h
  simp [statementNode, walk, walkOption]

theorem IsStatement.tag?_eq {n : Node} (h : IsStatement pos n) : n.tag? = none := by
  obtain ⟨source, rfl⟩ := h
  rfl

theorem IsStatement.isRootElement_eq {n : Node} (h : IsStatement pos n) : n.isRootElement = false := by
  rw [isRootElement, h.tag?_eq]
  rfl

theorem map_forwardAtRoot_statements {statements : List Node}
    (each : ∀ m ∈ statements, IsStatement pos m) (source : Option String) :
    statements.map (forwardAtRoot source) = statements := by
  refine (List.map_congr_left fun m hm => ?_).trans (List.map_id statements)
  cases source with
  | none => rfl
  | some source =>
    rw [forwardAtRoot, (each m hm).isRootElement_eq]
    rfl

theorem forwarded?_around (statements : ∀ m ∈ opening ++ closing, IsStatement pos m) :
    forwarded? usage (opening ++ nodes ++ closing) = forwarded? usage nodes := by
  obtain ⟨first, last⟩ := List.forall_mem_append.1 statements
  have silent : ∀ ns : List Node, (∀ m ∈ ns, IsStatement pos m) →
      (ns.any fun n => n.walk.any isSpreading) = false ∧ ns.filter isRootElement = [] := by
    intro ns each
    refine ⟨any_isSpreading_eq_false_iff.2 fun n hn m hm other tag => ?_,
      List.filter_eq_nil_iff.2 fun n hn => by simp [(each n hn).isRootElement_eq]⟩
    rw [(each n hn).walk_eq, List.mem_singleton] at hm
    rw [hm, (each n hn).tag?_eq] at tag
    cases tag
  obtain ⟨openingQuiet, openingRoots⟩ := silent opening first
  obtain ⟨closingQuiet, closingRoots⟩ := silent closing last
  rw [forwarded?, List.any_append, List.any_append, openingQuiet, closingQuiet, Bool.false_or,
    Bool.or_false, List.filter_append, List.filter_append, openingRoots, closingRoots, List.nil_append,
    List.append_nil, forwarded?]

theorem applyFallthrough_around (statements : ∀ m ∈ opening ++ closing, IsStatement pos m)
    (h : (applyFallthrough component usage (opening ++ nodes ++ closing)).result = .ok out) :
    out = opening ++ nodes.map (forwardAtRoot (forwarded? usage nodes)) ++ closing := by
  obtain ⟨first, last⟩ := List.forall_mem_append.1 statements
  rw [applyFallthrough_eq_ok h, forwarded?_around statements, List.map_append, List.map_append,
    map_forwardAtRoot_statements first, map_forwardAtRoot_statements last]

end Around

variable {bodyPos : Position} {head : Sequence} {nodes : List Node}

/-- Binding and forwarding attributes puts statements around a body, and adds one spread at most. It is
added to the one tag at the top that is no slot, if no tag of the body spreads anything and this tag sets
none of the keys that the component takes; taking it away gives the body back. -/
theorem frame_of_inject (wf : (Node.seq bodyPos head nodes).isWellFormed = true) (component : String)
    (usage : Option Usage) (entries : List (String × String)) (pos : Position) :
    ∃ opening inner closing,
      ((Node.seq bodyPos head nodes).inject component usage (.ofEntries entries) pos).result =
        .ok (.seq bodyPos head (opening ++ inner ++ closing)) ∧
      (∀ m ∈ opening ++ closing, IsStatement pos m) ∧
      ((opening.length, closing.length) = if usage.isSome then (3, 1) else (1, 0)) ∧
      ((∃ before root element after, Receives usage nodes before root element after ∧
        ∃ received, inner = before ++ received :: after ∧
          received.spreads? = some [{ val := .str (passedOn usage), pos := root.pos }] ∧
          received.withSpreads [] = root) ∨
        inner = nodes ∧ ∀ before root element after, ¬ Receives usage nodes before root element after) := by
  have texts := Bindings.areTexts_ofEntries entries
  have sure : Sure (injectAttributes component usage (.ofEntries entries) pos nodes).result :=
    sure_injectAttributes texts (isWellFormed_seq.1 wf).2.2
  obtain ⟨out, injection⟩ := sure.exists_ok
  obtain ⟨bound, binding, forwarding⟩ := Run.result_bind_eq_ok.1 injection
  obtain ⟨opening, closing, rfl, statements, counts⟩ := bindAround_eq_ok binding
  obtain rfl := applyFallthrough_around statements forwarding
  refine ⟨opening, nodes.map (forwardAtRoot (forwarded? usage nodes)), closing, ?_, statements, counts, ?_⟩
  · exact Run.result_bind_eq_ok.2 ⟨_, injection, rfl⟩
  cases choice : forwarded? usage nodes with
  | some source =>
    obtain ⟨rfl, before, root, element, after, receives⟩ := forwarded?_eq_some_iff.1 choice
    refine .inl ⟨before, root, element, after, receives, _, receives.map_forwardAtRoot, ?_, ?_⟩
    · exact spreads?_withSpreads receives.tag _
    · exact withSpreads_withSpreads_nil receives.tag receives.spreads_eq _
  | none =>
    refine .inr ⟨List.map_id nodes, fun before root element after receives => ?_⟩
    rw [forwarded?_eq_some_iff.2 ⟨rfl, before, root, element, after, receives⟩] at choice
    cases choice

def spreadingTag (name : String) (spreads : List String) (inner : List Node) : Node :=
  .owner {} (.tag { label := .str name, spreads := spreads.map fun s => { val := .str s } })
    (some (block {} inner))

def panelNodes : List Node :=
  [.leaf {} (.text (.str "Panel")), spreadingTag "section" [] [spreadingTag "slot" [] []],
    spreadingTag "slot" [] []]

theorem frame_panelNodes : (Node.seq {} .plain panelNodes).isWellFormed = true ∧
    ∃ opening inner closing,
      ((Node.seq {} .plain panelNodes).inject "Panel" (some { props := ["title"] })
        (.ofEntries [("title", "heading"), ("id", "'p'")]) {}).result =
          .ok (.seq {} .plain (opening ++ inner ++ closing)) ∧
      (opening.length, closing.length) = (3, 1) ∧
      ∃ received ∈ inner, ∃ spread, received.spreads? = some [spread] ∧ spread.val = .str "$attrs" := by
  have wf : (Node.seq {} .plain panelNodes).isWellFormed = true := by decide +kernel
  obtain ⟨opening, inner, closing, result, -, counts, kept⟩ :=
    frame_of_inject wf "Panel" (some { props := ["title"] }) [("title", "heading"), ("id", "'p'")] {}
  refine ⟨wf, opening, inner, closing, result, counts, ?_⟩
  have chosen : forwarded? (some { props := ["title"] }) panelNodes = some "$attrs" := by decide +kernel
  obtain ⟨-, before, root, element, after, receives⟩ := forwarded?_eq_some_iff.1 chosen
  rcases kept with ⟨_, _, _, _, -, received, rfl, spreads, -⟩ | ⟨-, nobody⟩
  · exact ⟨received, by simp, _, spreads, rfl⟩
  · exact absurd receives (nobody before root element after)

/-- A tag that spreads attributes wins, wherever it stands in a body: nothing is forwarded then, and
nothing is recorded. -/
theorem unchanged_of_manualSpread {pos : Position} {m : Node} {element : Element}
    (wf : (block pos nodes).isWellFormed = true) (hm : m ∈ (block pos nodes).walk)
    (tag : m.tag? = some element) (spreads : element.spreads ≠ []) (component : String)
    (usage : Option Usage) : applyFallthrough component usage nodes = pure nodes := by
  have wf' : (block {} nodes).isWellFormed = true := isWellFormed_block rfl (isWellFormed_seq.1 wf).2.2
  have hm' : m ∈ (block {} nodes).walk := by
    rcases mem_walk_iff.1 hm with rfl | below
    · cases tag
    · exact mem_walk_iff.2 (.inr below)
  have isSpreading : m.isSpreading = true := by
    by_contra quiet
    exact spreads (isSpreading_eq_false_iff.1 (eq_false_of_ne_true quiet) element tag)
  have filed : (block {} nodes).Lacks isMisfiled :=
    fun n hn => isMisfiled_of_isWellFormed (isWellFormed_of_mem_walk wf' hn)
  obtain ⟨found, asked⟩ := (sure_anyBelow filed Node.isSpreading).exists_ok
  have found_eq : found = true := by
    rw [eq_any_of_anyBelow asked, List.any_eq_true]
    exact ⟨m, hm', isSpreading⟩
  rw [applyFallthrough, asked, found_eq]
  rfl

theorem unchanged_formNodes :
    let nodes := [spreadingTag "form" [] [.fork {} (.conditional (.str "open"))
      (some (block {} [spreadingTag "label" ["$attrs"] []])) none]]
    (block {} nodes).isWellFormed = true ∧
      applyFallthrough "Field" (some { attrs := ["class"] }) nodes = pure nodes := by
  intro nodes
  have wf : (block {} nodes).isWellFormed = true := by decide +kernel
  refine ⟨wf, unchanged_of_manualSpread (m := spreadingTag "label" ["$attrs"] []) wf ?_ rfl (by simp) _ _⟩
  simp [nodes, spreadingTag, block, walk, walkAll, walkOption]

/-- The node spreads attributes, but they are forwarded to the tag around it all the same. -/
structure Overruled (inner : Node) : Prop where
  isWellFormed : (block {} [spreadingTag "div" [] [inner]]).isWellFormed = true
  spreads : ∃ spread, inner.spreads? = some [spread]
  below : inner ∈ (block {} [spreadingTag "div" [] [inner]]).walk
  changed : (applyFallthrough "Chip" (some { props := ["tagName"] }) [spreadingTag "div" [] [inner]]).result ≠
    .ok [spreadingTag "div" [] [inner]]

theorem overruled_of_forwarded? {inner : Node} {spread : Spread}
    (wf : (block {} [spreadingTag "div" [] [inner]]).isWellFormed = true)
    (spreads : inner.spreads? = some [spread])
    (chosen : forwarded? (some { props := ["tagName"] }) [spreadingTag "div" [] [inner]] = some "$attrs") :
    Overruled inner where
  isWellFormed := wf
  spreads := ⟨spread, spreads⟩
  below := by simp [spreadingTag, block, walk, walkAll, walkOption, self_mem_walk]
  changed unchanged := by
    obtain ⟨-, _, _, _, _, receives⟩ := forwarded?_eq_some_iff.1 chosen
    exact receives.map_ne (chosen ▸ (applyFallthrough_eq_ok unchanged).symm)

def computedTag : Node :=
  .owner {} (.interpolatedTag { label := .str "tagName", spreads := [{ val := .str "$attrs" }] }) none

def mixinCall : Node :=
  .owner {} (.mixin { name := .str "item", call := .bool true, spreads := [{ val := .str "$attrs" }] }) none

/-- Neither a tag with a computed name nor a mixin call wins by spreading attributes. -/
theorem changed_around_otherSpreads : Overruled computedTag ∧ Overruled mixinCall :=
  ⟨overruled_of_forwarded? (by decide +kernel) rfl (by decide +kernel),
    overruled_of_forwarded? (by decide +kernel) rfl (by decide +kernel)⟩

end PugComponents

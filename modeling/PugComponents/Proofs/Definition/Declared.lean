import PugComponents.Detection
import PugComponents.Proofs.Definition.Unescape
import PugComponents.Proofs.Outcome

/-! The components that a tree declares. A `component` tag declares the name in its header, and what is
registered for it calls the same components as its body does. -/

namespace PugComponents

namespace Node

def declaredName? (tag : Node) : Option String := do
  let nodes ← (Definition.nodesBelow tag).toOption
  let header ← nodes.find? Definition.isText
  let text ← (Definition.textOf header).toOption
  Definition.headerName? (Text.trim text)

/-- The body of a `component` tag: all that stands below it but the header. -/
def declaredBody (tag : Node) : Node :=
  block tag.pos (Definition.withoutName ((Definition.nodesBelow tag).toOption.getD []))

end Node

/-- An uppercase letter, followed by letters, digits and underscores. -/
def IsComponentName (name : String) : Prop :=
  ∃ c cs, name.toList = c :: cs ∧ c.isUpper = true ∧ cs.all Definition.isNameRest = true

namespace Definition

open Node

theorem isComponentName_of_headerName? {header name : String} (h : headerName? header = some name) :
    IsComponentName name := by
  unfold headerName? at h
  split at h
  · rename_i c cs _
    split at h
    · rename_i valid
      rw [Bool.and_eq_true] at valid
      simp only [Option.some.injEq] at h
      refine ⟨c, cs.takeWhile isNameRest, by simp [← h], valid.1, ?_⟩
      exact List.all_takeWhile
    · cases h
  · cases h

theorem isComponentName_of_declaredName? {tag : Node} {name : String}
    (h : tag.declaredName? = some name) : IsComponentName name := by
  simp only [declaredName?, Option.bind_eq_bind, Option.bind_eq_some_iff] at h
  obtain ⟨_, -, _, -, _, -, h⟩ := h
  exact isComponentName_of_headerName? h

theorem mem_of_mem_withoutName {n : Node} {nodes : List Node} (h : n ∈ withoutName nodes) :
    n ∈ nodes := by
  induction nodes with
  | nil => cases h
  | cons m ms ih =>
    rw [withoutName] at h
    split at h
    · exact List.mem_cons_of_mem m h
    · rcases List.mem_cons.1 h with rfl | h
      · simp
      · exact List.mem_cons_of_mem m (ih h)

theorem readName_eq_ok {r : Reporter} {location : Location} {nodes : List Node} {name : String}
    (h : readName r location nodes = .ok name) :
    ∃ header text, nodes.find? isText = some header ∧ textOf header = .ok text ∧
      headerName? (Text.trim text) = some name := by
  unfold readName at h
  split at h
  · cases h
  · rename_i header found
    rw [Outcome.bind_eq_ok] at h
    obtain ⟨text, read, h⟩ := h
    split at h
    · rename_i name' valid
      rw [Outcome.pure_eq_ok] at h
      exact ⟨header, text, found, read, h ▸ valid⟩
    · cases h

theorem unescaped_cases {usage : Option Usage} {scope : Scope} {pos : Position} {nodes out : List Node}
    (h : unescaped usage scope (block pos nodes) = .ok out) :
    out = nodes ∨
      usage.isSome = true ∧ out = nodes.map (mapOwners (Owner.unescape scope.derived)) := by
  cases usage with
  | none =>
    simp only [unescaped, Except.ok.injEq] at h
    exact .inl (by simpa using h.symm)
  | some usage =>
    simp only [unescaped, Outcome.bind_eq_ok, Outcome.pure_eq_ok] at h
    obtain ⟨⟨count, body⟩, run, h⟩ := h
    unfold unescape at run
    split at run
    · simp only [Except.ok.injEq, Prod.mk.injEq] at run
      exact .inl (by simpa [← run.2] using h.symm)
    · simp only [Outcome.bind_eq_ok, Outcome.pure_eq_ok, Prod.mk.injEq] at run
      obtain ⟨changed, -, -, rfl⟩ := run
      refine .inr ⟨rfl, ?_⟩
      simpa [block, mapOwners, nodes?, mapOwnersAll_eq_map] using h.symm

theorem unescaped_eq_ok {usage : Option Usage} {scope : Scope} {pos : Position} {nodes out : List Node}
    (h : unescaped usage scope (block pos nodes) = .ok out) :
    ∃ f : Node → Node, (∀ n, Alike n (f n)) ∧ out = nodes.map f := by
  rcases unescaped_cases h with rfl | ⟨-, rfl⟩
  · exact ⟨id, .refl, by simp⟩
  · exact ⟨mapOwners (Owner.unescape scope.derived), alike_unescape, rfl⟩

end Definition

/-- What is registered for a `component` tag: its name, and nodes that have the tags of its body and call
the same components. -/
structure Describes (tag : Node) (d : Definition) : Prop where
  name : tag.declaredName? = some d.name
  isWellFormed : tag.isWellFormed = true → ∀ n ∈ d.nodes, n.isWellFormed = true
  stems : ∀ page : Node, page.StemsFrom tag → ∀ n ∈ d.nodes, page.StemsFrom n
  mentions : ∀ name, ∀ n ∈ d.nodes, n.Mentions name → tag.declaredBody.Mentions name
  retains : ∀ name, tag.declaredBody.Retains name → ∃ n ∈ d.nodes, n.Retains name

abbrev Registers (page : Node) (reg : Registry) : Prop :=
  List.Forall₂ Describes (page.walk.filter Node.isDefinition) reg.definitions

namespace Definition

open Node

theorem exists_block_of_nodesBelow {tag : Node} {nodes : List Node}
    (isDefinition : tag.isDefinition = true) (h : nodesBelow tag = .ok nodes) :
    ∀ n ∈ nodes, ∃ b ∈ tag.children, n ∈ b.children := by
  obtain ⟨pos, element, block, rfl, -⟩ := exists_tag_of_isTagNamed isDefinition
  cases block with
  | none =>
    simp only [nodesBelow, block?, Except.ok.injEq] at h
    simp [← h]
  | some b =>
    cases b with
    | seq pos head inner =>
      simp only [nodesBelow, block?, nodes?, Except.ok.injEq] at h
      intro n hn
      exact ⟨.seq pos head inner, by simp [children], by rwa [children, h]⟩
    | _ => simp [nodesBelow, block?, nodes?] at h

theorem isWellFormed_of_nodesBelow {tag : Node} {nodes : List Node} (wf : tag.isWellFormed = true)
    (isDefinition : tag.isDefinition = true) (h : nodesBelow tag = .ok nodes) :
    ∀ n ∈ nodes, n.isWellFormed = true := by
  intro n hn
  obtain ⟨b, hb, hn⟩ := exists_block_of_nodesBelow isDefinition h n hn
  exact isWellFormed_of_mem_children (isWellFormed_of_mem_children wf hb) hn

theorem ofNode_eq_ok {analysis : Analysis} {config : Config} {tag : Node} {d : Definition}
    (h : (ofNode config tag analysis).result = .ok d) :
    ∃ nodes, nodesBelow tag = .ok nodes ∧ tag.declaredName? = some d.name ∧
      tag.declaredBody = block tag.pos (withoutName nodes) ∧
      analysis.usage tag.declaredBody = .ok d.usage ∧
      analysis.scope config.allowedGlobals tag.declaredBody = .ok d.scope ∧
      unescaped d.usage d.scope tag.declaredBody = .ok d.nodes := by
  rw [ofNode, Run.result_bind_eq_ok] at h
  obtain ⟨nodes, below, h⟩ := h
  rw [Run.result_lift] at below
  simp only [ofNodes, Run.result_bind_eq_ok, Run.result_lift, Run.result_pure, Except.ok.injEq] at h
  obtain ⟨name, named, slots, -, usage, used, scope, analysed, _, -, body, unescaping, rfl⟩ := h
  have body_eq : tag.declaredBody = block tag.pos (withoutName nodes) := by
    simp [declaredBody, below, Except.toOption]
  refine ⟨nodes, below, ?_, body_eq, ?_, ?_, ?_⟩
  · obtain ⟨header, text, found, read, valid⟩ := readName_eq_ok named
    simp [declaredName?, below, Except.toOption, found, read, valid]
  · exact body_eq ▸ used
  · exact body_eq ▸ analysed
  · exact body_eq ▸ unescaping

theorem describes_of_ofNode {analysis : Analysis} {config : Config} {tag : Node} {d : Definition}
    (isDefinition : tag.isDefinition = true) (h : (ofNode config tag analysis).result = .ok d) :
    Describes tag d := by
  obtain ⟨nodes, below, name_eq, body_eq, -, -, unescaping⟩ := ofNode_eq_ok h
  rw [body_eq] at unescaping
  obtain ⟨f, alike, nodes_eq⟩ := unescaped_eq_ok unescaping
  refine ⟨name_eq, ?_, ?_, ?_, ?_⟩ <;> rw [nodes_eq]
  · intro wf m hm
    obtain ⟨n, hn, rfl⟩ := List.mem_map.1 hm
    have below := isWellFormed_of_nodesBelow wf isDefinition below
    exact (alike n).isWellFormed (below n (mem_of_mem_withoutName hn))
  · intro page stems m hm
    obtain ⟨n, hn, rfl⟩ := List.mem_map.1 hm
    obtain ⟨b, hb, hn⟩ := exists_block_of_nodesBelow isDefinition below n (mem_of_mem_withoutName hn)
    exact (alike n).stems page ((stems.of_mem_children hb).of_mem_children hn)
  · intro called m hm mentions
    obtain ⟨n, hn, rfl⟩ := List.mem_map.1 hm
    rw [body_eq, mentions_block]
    exact ⟨n, hn, ((alike n).mentions called).1 mentions⟩
  · intro called retains
    rw [body_eq, retains_block] at retains
    obtain ⟨n, hn, retains⟩ := retains
    exact ⟨f n, List.mem_map_of_mem hn, ((alike n).retains called).2 retains⟩

end Definition

end PugComponents

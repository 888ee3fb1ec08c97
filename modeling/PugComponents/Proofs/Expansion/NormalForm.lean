import PugComponents.Proofs.Session

/-! What is left in an expanded template. No word of the component vocabulary is, except for slots that
belong to no component: those that stand outside of every call and every definition. The trees of
included files stand in their places, and blocks are not nested without need. -/

namespace PugComponents

open Node

variable {analysis : Definition.Analysis} {config : Config} {page tree : Node}

/-- An expanded template is well-formed and in normal form. -/
theorem normalForm_of_expand (isBlock : page.isBlock = true) (wf : page.isWellFormed = true)
    (h : (expand config page analysis).result = .ok tree) :
    tree.isBlock = true ∧ tree.isWellFormed = true ∧ ∀ n ∈ tree.walk,
      n.isDefinition = false ∧ n.isCall = false ∧ n.isResolved = false ∧
        (n.isBlock = true → ∀ c ∈ n.children, c.isPlainBlock = false) := by
  obtain ⟨expanded, kept, stages⟩ := expand_eq_ok h
  have keptWf := (stages.kept_settled isBlock wf).1
  obtain ⟨treeWf, free, undefined, treeBlock⟩ := stages.tree_settled isBlock wf
  have unresolved := lacks_isResolved_of_flattenNode keptWf stages.flattening
  have unnested := lacks_isNested_of_flattenNode keptWf stages.flattening
  refine ⟨treeBlock, treeWf, fun n hn => ⟨undefined n hn, free n hn, unresolved n hn, ?_⟩⟩
  intro isBlock c hc
  have flat := unnested n hn
  rw [isNested, isBlock, Bool.true_and, List.any_eq_false] at flat
  simpa using flat c hc

def plainTag (name : String) (nodes : List Node) : Node :=
  .owner {} (.tag { label := .str name }) (some (block {} nodes))

def plainText (text : String) : Node := .leaf {} (.text (.str text))

/-- A component that frames what it is given, two instances of it inside each other, and a slot. -/
def framedPage : Node :=
  block {} [plainTag "component" [plainText "Frame()", plainTag "div" [plainTag "slot" []]],
    plainTag "Frame" [plainTag "Frame" [plainTag "p" []]], plainTag "slot" []]

theorem exists_expand_framedPage : ∃ tree, (expand {} framedPage).result = .ok tree :=
  Outcome.exists_ok_of_isOk (by decide +kernel)

theorem normalForm_framedPage : ∃ tree, (expand {} framedPage).result = .ok tree ∧
    ∀ n ∈ tree.walk, n.isDefinition = false ∧ n.isCall = false := by
  obtain ⟨tree, h⟩ := exists_expand_framedPage
  have normal := normalForm_of_expand (by decide +kernel) (by decide +kernel) h
  exact ⟨tree, h, fun n hn => ⟨(normal.2.2 n hn).1, (normal.2.2 n hn).2.1⟩⟩

def isCallOrDefinition (n : Node) : Bool := n.isCall || n.isDefinition

theorem isCallOrDefinition_eq_of_tag?_eq {n n' : Node} (h : n'.tag? = n.tag?) :
    isCallOrDefinition n' = isCallOrDefinition n := by
  rw [isCallOrDefinition, isCall_eq_of_tag?_eq h, isDefinition_eq_of_tag?_eq h, isCallOrDefinition]

/-- Every pass keeps the slots that no call and no definition owns. -/
theorem slotsUntil_of_stages {expanded kept : Node} (wf : page.isWellFormed = true)
    (isBlock : page.isBlock = true) (stages : Stages analysis config page expanded kept tree) :
    tree.slotsUntil isCallOrDefinition = page.slotsUntil isCallOrDefinition := by
  have byTag : ∀ n n' : Node, n'.tag? = n.tag? → isCallOrDefinition n' = isCallOrDefinition n :=
    fun _ _ => isCallOrDefinition_eq_of_tag?_eq
  have bodies := hasBodies_of_described wf stages.described
  have expansion : expanded.slotsUntil isCallOrDefinition = page.slotsUntil isCallOrDefinition :=
    (slotsUntil_both_of_expand byTag (by simp +contextual [isCallOrDefinition])
      (Expansion.expandCall_settled bodies _ _) (Expansion.expandCall_slotless bodies _ _) page).1
      expanded stages.expansion wf
  have removal : kept.slotsUntil isCallOrDefinition = expanded.slotsUntil isCallOrDefinition :=
    slotsUntil_of_withoutDefinitions byTag (by simp +contextual [isCallOrDefinition])
      (stages.expanded_settled isBlock wf).1 stages.removal
  have flattening : tree.slotsUntil isCallOrDefinition = kept.slotsUntil isCallOrDefinition :=
    slotsUntil_of_flattenNode byTag
      (by simp +contextual [isCallOrDefinition, isCall, calledName?, isDefinition, isTagNamed])
      (stages.kept_settled isBlock wf).1 stages.flattening
  exact flattening.trans (removal.trans expansion)

/-- The slots of an expanded template are the slots of the template that no call and no definition
owns. -/
theorem slots_of_expand (isBlock : page.isBlock = true) (wf : page.isWellFormed = true)
    (h : (expand config page analysis).result = .ok tree) :
    ((∃ m ∈ tree.walk, m.isSlot = true) ↔
      ∃ above m, Lineage page above m ∧ m.isSlot = true ∧
        ∀ a ∈ above, a.isCall = false ∧ a.isDefinition = false) ∧
    (tree.walk.filter isSlot).map bare = page.slotsUntil isCallOrDefinition := by
  obtain ⟨expanded, kept, stages⟩ := expand_eq_ok h
  obtain ⟨-, free, undefined, -⟩ := stages.tree_settled isBlock wf
  have whole : tree.walkUntil isCallOrDefinition = tree.walk := by
    refine walkUntil_eq_walk fun m hm => ?_
    rw [isCallOrDefinition, free m hm, undefined m hm]
    rfl
  have same : (tree.walk.filter isSlot).map bare = page.slotsUntil isCallOrDefinition := by
    rw [← slotsUntil_of_stages wf isBlock stages, slotsUntil, whole]
  refine ⟨?_, same⟩
  have left : (∃ m ∈ tree.walk, m.isSlot = true) ↔ page.slotsUntil isCallOrDefinition ≠ [] := by
    rw [← same]
    simp
  rw [left, Ne, slotsUntil_eq_nil_iff]
  push Not
  constructor
  · rintro ⟨m, hm, slot⟩
    obtain ⟨above, line, outside⟩ := mem_walkUntil_iff.1 hm
    refine ⟨above, m, line, by simpa using slot, fun a ha => ?_⟩
    simpa [isCallOrDefinition] using outside a ha
  · rintro ⟨above, m, line, slot, outside⟩
    refine ⟨m, mem_walkUntil_iff.2 ⟨above, line, fun a ha => ?_⟩, by simp [slot]⟩
    simpa [isCallOrDefinition] using outside a ha

theorem slots_framedPage : ∃ tree, (expand {} framedPage).result = .ok tree ∧
    (tree.walk.filter isSlot).map bare = [bare (plainTag "slot" [])] := by
  obtain ⟨tree, h⟩ := exists_expand_framedPage
  have slots := (slots_of_expand (by decide +kernel) (by decide +kernel) h).2
  refine ⟨tree, h, slots.trans ?_⟩
  rfl

end PugComponents

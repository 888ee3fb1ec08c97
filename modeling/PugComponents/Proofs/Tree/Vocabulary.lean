import PugComponents.Proofs.Tree.Lineage

/-! The tags that make up components. Whether a node is a call, a slot or a definition depends on the
name of its tag alone, and a slot is neither of the others. -/

namespace PugComponents.Node

def label? (n : Node) : Option Json := n.tag?.map Element.label

theorem isTagNamed_eq_of_label?_eq {n n' : Node} (h : n'.label? = n.label?) (name : String) :
    n'.isTagNamed name = n.isTagNamed name := by
  simp only [label?] at h
  cases found : n.tag? <;> cases found' : n'.tag? <;> simp_all [isTagNamed]

theorem isSlot_eq_of_label?_eq {n n' : Node} (h : n'.label? = n.label?) : n'.isSlot = n.isSlot :=
  isTagNamed_eq_of_label?_eq h "slot"

theorem isDefinition_eq_of_label?_eq {n n' : Node} (h : n'.label? = n.label?) :
    n'.isDefinition = n.isDefinition :=
  isTagNamed_eq_of_label?_eq h "component"

theorem calledName?_eq_of_label?_eq {n n' : Node} (h : n'.label? = n.label?) :
    n'.calledName? = n.calledName? := by
  simp only [label?] at h
  cases found : n.tag? with
  | none =>
    rw [found] at h
    simp [calledName?, found, Option.map_eq_none_iff.1 h]
  | some element =>
    rw [found] at h
    obtain ⟨element', found', label⟩ := Option.map_eq_some_iff.1 h
    obtain ⟨label₁, _⟩ := element
    obtain ⟨label₂, _⟩ := element'
    cases (label : label₂ = label₁)
    simp only [calledName?, found, found']
    cases label₁ <;> rfl

theorem isCall_eq_of_label?_eq {n n' : Node} (h : n'.label? = n.label?) : n'.isCall = n.isCall := by
  rw [isCall, calledName?_eq_of_label?_eq h, isCall]

theorem label?_eq_of_tag?_eq {n n' : Node} (h : n'.tag? = n.tag?) : n'.label? = n.label? := by
  rw [label?, h, label?]

theorem isSlot_eq_of_tag?_eq {n n' : Node} (h : n'.tag? = n.tag?) : n'.isSlot = n.isSlot :=
  isSlot_eq_of_label?_eq (label?_eq_of_tag?_eq h)

theorem isDefinition_eq_of_tag?_eq {n n' : Node} (h : n'.tag? = n.tag?) :
    n'.isDefinition = n.isDefinition :=
  isDefinition_eq_of_label?_eq (label?_eq_of_tag?_eq h)

theorem calledName?_eq_of_tag?_eq {n n' : Node} (h : n'.tag? = n.tag?) :
    n'.calledName? = n.calledName? :=
  calledName?_eq_of_label?_eq (label?_eq_of_tag?_eq h)

theorem isCall_eq_of_tag?_eq {n n' : Node} (h : n'.tag? = n.tag?) : n'.isCall = n.isCall :=
  isCall_eq_of_label?_eq (label?_eq_of_tag?_eq h)

theorem exists_owner_of_tag? {n : Node} {element : Element} (h : n.tag? = some element) :
    ∃ pos block, n = .owner pos (.tag element) block := by
  cases n with
  | owner pos head block =>
    cases head with
    | tag e =>
      simp only [tag?, Option.some.injEq] at h
      exact ⟨pos, block, h ▸ rfl⟩
    | _ => simp [tag?] at h
  | _ => simp [tag?] at h

theorem exists_tag_of_isCall {n : Node} (h : n.isCall = true) :
    ∃ pos element block, n = .owner pos (.tag element) block := by
  cases found : n.tag? with
  | none => simp [isCall, calledName?, found] at h
  | some element =>
    obtain ⟨pos, block, rfl⟩ := exists_owner_of_tag? found
    exact ⟨pos, element, block, rfl⟩

theorem exists_tag_of_isTagNamed {name : String} {n : Node} (h : n.isTagNamed name = true) :
    ∃ pos element block, n = .owner pos (.tag element) block ∧ element.label = .str name := by
  cases found : n.tag? with
  | none => simp [isTagNamed, found] at h
  | some element =>
    obtain ⟨pos, block, rfl⟩ := exists_owner_of_tag? found
    refine ⟨pos, element, block, rfl, ?_⟩
    simp only [isTagNamed, tag?] at h
    cases label : element.label with
    | str s =>
      rw [label] at h
      rw [show s = name by simpa [BEq.beq, Json.same] using h]
    | _ => rw [label] at h; simp [BEq.beq, Json.same] at h

theorem isSlot_eq_false_of_tag? {n : Node} (h : n.tag? = none) : n.isSlot = false := by
  simp [isSlot, isTagNamed, h]

theorem isDefinition_eq_false_of_tag? {n : Node} (h : n.tag? = none) : n.isDefinition = false := by
  simp [isDefinition, isTagNamed, h]

theorem isCall_eq_false_of_tag? {n : Node} (h : n.tag? = none) : n.isCall = false := by
  simp [isCall, calledName?, h]

theorem isCall_eq_of_callCheck {n : Node} {b : Bool} (h : n.callCheck = .ok b) : n.isCall = b := by
  unfold callCheck at h
  split at h
  · cases h
  · simpa using h

theorem isCall_eq_false_of_isTagNamed {name : String} {n : Node} (h : n.isTagNamed name = true)
    (lower : startsUppercase name = false) : n.isCall = false := by
  obtain ⟨pos, ⟨label, attrs, spreads, selfClosing, isInline⟩, block, rfl, rfl⟩ :=
    exists_tag_of_isTagNamed h
  simp [isCall, calledName?, tag?, lower]

theorem isCall_eq_false_of_isSlot {n : Node} (h : n.isSlot = true) : n.isCall = false :=
  isCall_eq_false_of_isTagNamed h (by decide +kernel)

theorem isSlot_eq_false_of_isCall {n : Node} (h : n.isCall = true) : n.isSlot = false := by
  by_contra slot
  rw [isCall_eq_false_of_isSlot (by simpa using slot)] at h
  cases h

theorem isSlot_eq_false_of_isDefinition {n : Node} (h : n.isDefinition = true) :
    n.isSlot = false := by
  obtain ⟨pos, element, block, rfl, label⟩ := exists_tag_of_isTagNamed h
  simp only [isSlot, isTagNamed, tag?, label]
  decide +kernel

abbrev CallFree (n : Node) : Prop := n.Lacks isCall

theorem callFree_block {pos : Position} {nodes : List Node} (free : ∀ n ∈ nodes, n.CallFree) :
    (block pos nodes).CallFree :=
  lacks_iff.2 ⟨rfl, free⟩

end PugComponents.Node

import PugComponents.Proofs.Outcome
import PugComponents.Proofs.Tree.WellFormed
import PugComponents.Slots.Provided

/-! Where provided content comes from: it is the block of a slot directly below the call, or the block
of all that stands there besides. So it is well-formed if the call is, and it has no calls if there
are none below the call. -/

namespace PugComponents

namespace Node

def slotContent (slot : Node) : Node := (slot.block?.getD none).getD (emptyBlock slot.pos)

theorem isWellFormed_slotContent {slot : Node} (isSlot : slot.isSlot = true)
    (wf : slot.isWellFormed = true) : slot.slotContent.isWellFormed = true := by
  obtain ⟨pos, element, block, rfl, -⟩ := exists_tag_of_isTagNamed isSlot
  cases block with
  | none => exact isWellFormed_block (isWellFormed_owner.1 wf).1 (by simp)
  | some b => exact isWellFormed_of_mem_children wf (by simp [slotContent, block?, children])

theorem Inherited.slotContent {Q : Node → Prop} (inherited : Inherited Q)
    (blocks : ∀ pos nodes, (∀ n ∈ nodes, Q n) → Q (block pos nodes)) {slot : Node}
    (isSlot : slot.isSlot = true) (holds : Q slot) : Q slot.slotContent := by
  obtain ⟨pos, element, block, rfl, -⟩ := exists_tag_of_isTagNamed isSlot
  cases block with
  | none => exact blocks pos [] (by simp)
  | some b => exact inherited.child holds (by simp [Node.slotContent, block?, children])

end Node

namespace Provided

variable {r : Reporter}

theorem mem_addSlots {before after : Provided} {slots : List Node}
    (h : addSlots r before slots = .ok after) {entry : String × Node} (he : entry ∈ after) :
    entry ∈ before ∨ ∃ slot ∈ slots, entry.2 = slot.slotContent := by
  induction slots generalizing before with
  | nil =>
    simp only [addSlots, Except.ok.injEq] at h
    exact .inl (h ▸ he)
  | cons slot slots ih =>
    rw [addSlots, Outcome.bind_eq_ok] at h
    obtain ⟨name, -, h⟩ := h
    split at h
    · cases h
    · rcases ih h with found | ⟨other, hother, eq⟩
      · rcases List.mem_append.1 found with found | found
        · exact .inl found
        · rw [List.mem_singleton.1 found]
          exact .inr ⟨slot, by simp, rfl⟩
      · exact .inr ⟨other, List.mem_cons_of_mem _ hother, eq⟩

theorem mem_ofNodes {p : Provided} {call : Node} {nodes : List Node}
    (h : ofNodes r call nodes = .ok p) {entry : String × Node} (he : entry ∈ p) :
    (∃ slot ∈ nodes, slot.isSlot = true ∧ entry.2 = slot.slotContent) ∨
      entry.2 = Node.block call.pos (bareNodes nodes) := by
  rw [ofNodes, Outcome.bind_eq_ok] at h
  obtain ⟨slots, run, h⟩ := h
  have ofSlot : entry ∈ slots → ∃ slot ∈ nodes, slot.isSlot = true ∧ entry.2 = slot.slotContent := by
    intro found
    rcases mem_addSlots run found with found | ⟨slot, hslot, eq⟩
    · cases found
    · obtain ⟨member, isSlot⟩ := List.mem_filter.1 hslot
      exact ⟨slot, member, isSlot, eq⟩
  split at h
  · cases h
    exact .inl (ofSlot he)
  · split at h
    · cases h
    · cases h
      rcases List.mem_append.1 he with found | found
      · exact .inl (ofSlot found)
      · rw [List.mem_singleton.1 found]
        exact .inr rfl

theorem forall_mem_ofCall {Q : Node → Prop} {p : Provided} {call : Node} (isCall : call.isCall = true)
    (h : ofCall r call = .ok p)
    (slots : ∀ b ∈ call.children, ∀ n ∈ b.children, n.isSlot = true → Q n.slotContent)
    (bare : ∀ b ∈ call.children, ∀ nodes, (∀ n ∈ nodes, n ∈ b.children) →
      Q (Node.block call.pos nodes)) : ∀ entry ∈ p, Q entry.2 := by
  intro entry he
  obtain ⟨pos, element, block, rfl⟩ := Node.exists_tag_of_isCall isCall
  cases block with
  | none =>
    simp only [ofCall, Node.block?, Except.ok.injEq] at h
    subst h
    cases he
  | some b =>
    have hb : b ∈ (Node.owner pos (.tag element) (some b)).children := by simp [Node.children]
    simp only [ofCall, Node.block?] at h
    split at h
    · rename_i nodes found
      have same : b.children = nodes := by
        cases b with
        | seq => simpa [Node.nodes?, Node.children] using found
        | _ => simp [Node.nodes?] at found
      rcases mem_ofNodes h he with ⟨slot, hslot, isSlot, eq⟩ | eq
      · rw [eq]
        exact slots b hb slot (same ▸ hslot) isSlot
      · rw [eq]
        exact bare b hb _ fun n hn => same ▸ List.mem_of_mem_filter hn
    · cases h

theorem isWellFormed_of_mem {p : Provided} {call : Node} (isCall : call.isCall = true)
    (wf : call.isWellFormed = true) (h : ofCall r call = .ok p) :
    ∀ entry ∈ p, entry.2.isWellFormed = true := by
  have typed : call.pos.isTyped = true := by
    obtain ⟨pos, element, block, rfl⟩ := Node.exists_tag_of_isCall isCall
    exact (Node.isWellFormed_owner.1 wf).1
  have below : ∀ b ∈ call.children, ∀ n ∈ b.children, n.isWellFormed = true :=
    fun b hb n hn => Node.isWellFormed_of_mem_children (Node.isWellFormed_of_mem_children wf hb) hn
  refine forall_mem_ofCall (Q := fun n => n.isWellFormed = true) isCall h ?_ ?_
  · exact fun b hb n hn isSlot => Node.isWellFormed_slotContent isSlot (below b hb n hn)
  · exact fun b hb nodes sub => Node.isWellFormed_block typed fun n hn => below b hb n (sub n hn)

theorem inherited_of_mem {Q : Node → Prop} (inherited : Node.Inherited Q)
    (blocks : ∀ pos nodes, (∀ n ∈ nodes, Q n) → Q (Node.block pos nodes)) {p : Provided} {call : Node}
    (isCall : call.isCall = true) (below : ∀ c ∈ call.children, Q c) (h : ofCall r call = .ok p) :
    ∀ entry ∈ p, Q entry.2 := by
  refine forall_mem_ofCall isCall h ?_ ?_
  · exact fun b hb n hn isSlot =>
      inherited.slotContent blocks isSlot (inherited.child (below b hb) hn)
  · exact fun b hb nodes sub => blocks _ _ fun n hn => inherited.child (below b hb) (sub n hn)

theorem callFree_of_mem {p : Provided} {call : Node} (isCall : call.isCall = true)
    (free : ∀ c ∈ call.children, c.CallFree) (h : ofCall r call = .ok p) :
    ∀ entry ∈ p, entry.2.CallFree :=
  inherited_of_mem (Node.inherited_lacks fun _ _ => Node.isCall_eq_of_tag?_eq)
    (fun _ _ => Node.callFree_block) isCall free h

end Provided

end PugComponents

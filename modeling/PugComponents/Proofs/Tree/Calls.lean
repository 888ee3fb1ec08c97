import PugComponents.Proofs.Tree.Marks
import PugComponents.Proofs.Tree.WellFormed

/-! The components that are called below a node. Some of these calls stand in slots, and what a call
provides may take their places; a call is retained if every slot above it belongs to another call. -/

namespace PugComponents.Node

def Mentions (n : Node) (name : String) : Prop := ∃ m ∈ n.walk, m.calledName? = some name

theorem mentions_iff {n : Node} {name : String} :
    n.Mentions name ↔ n.calledName? = some name ∨ ∃ c ∈ n.children, c.Mentions name := by
  constructor
  · rintro ⟨m, hm, called⟩
    rcases mem_walk_iff.1 hm with rfl | ⟨c, hc, hm⟩
    · exact .inl called
    · exact .inr ⟨c, hc, m, hm, called⟩
  · rintro (called | ⟨c, hc, m, hm, called⟩)
    · exact ⟨n, self_mem_walk n, called⟩
    · exact ⟨m, mem_walk_of_mem_children hc hm, called⟩

theorem isCall_of_calledName? {n : Node} {name : String} (h : n.calledName? = some name) :
    n.isCall = true := by
  rw [isCall, h]
  rfl

def isSlotOrCall (n : Node) : Bool := n.isSlot || n.isCall

/-- The component is called at or below the node, and no slot encloses the outermost of the calls around
that call. -/
def Retains (n : Node) (name : String) : Prop :=
  ∃ c ∈ n.walkUntil isSlotOrCall, c.isCall = true ∧ c.Mentions name

theorem retains_iff {n : Node} {name : String} :
    n.Retains name ↔ n.isCall = true ∧ n.Mentions name ∨
      n.isSlotOrCall = false ∧ ∃ c ∈ n.children, c.Retains name := by
  constructor
  · rintro ⟨m, hm, isCall, mentions⟩
    rcases mem_walkUntil_step.1 hm with rfl | ⟨free, c, hc, hm⟩
    · exact .inl ⟨isCall, mentions⟩
    · exact .inr ⟨free, c, hc, m, hm, isCall, mentions⟩
  · rintro (⟨isCall, mentions⟩ | ⟨free, c, hc, m, hm, isCall, mentions⟩)
    · exact ⟨n, mem_walkUntil_step.2 (.inl rfl), isCall, mentions⟩
    · exact ⟨m, mem_walkUntil_step.2 (.inr ⟨free, c, hc, hm⟩), isCall, mentions⟩

/-- Every slot among the nodes, from the outermost one on, comes after a call. -/
def SlotsBelowCalls (above : List Node) : Prop :=
  ∀ before s after, above = before ++ s :: after → s.isSlot = true → ∃ a ∈ before, a.isCall = true

theorem slotsBelowCalls_cons {n : Node} {above : List Node} :
    SlotsBelowCalls (n :: above) ↔
      n.isSlot = false ∧ (n.isCall = true ∨ SlotsBelowCalls above) := by
  constructor
  · intro h
    refine ⟨?_, ?_⟩
    · by_contra slot
      obtain ⟨a, ha, -⟩ := h [] n above rfl (by simpa using slot)
      cases ha
    · by_cases isCall : n.isCall = true
      · exact .inl isCall
      · refine .inr fun before s after eq slot => ?_
        obtain ⟨a, ha, isCall'⟩ := h (n :: before) s after (by rw [eq, List.cons_append]) slot
        rcases List.mem_cons.1 ha with rfl | ha
        · exact absurd isCall' isCall
        · exact ⟨a, ha, isCall'⟩
  · rintro ⟨notSlot, rest⟩ before s after eq slot
    cases before with
    | nil =>
      rw [List.nil_append, List.cons.injEq] at eq
      rw [eq.1] at notSlot
      rw [slot] at notSlot
      cases notSlot
    | cons a before =>
      rw [List.cons_append, List.cons.injEq] at eq
      obtain ⟨rfl, eq⟩ := eq
      rcases rest with isCall | rest
      · exact ⟨n, by simp, isCall⟩
      · obtain ⟨a, ha, isCall⟩ := rest before s after eq slot
        exact ⟨a, List.mem_cons_of_mem _ ha, isCall⟩

/-- The retained calls are those that have no slot above them outside of every call. -/
theorem retains_iff_lineage {n : Node} {name : String} :
    n.Retains name ↔
      ∃ above m, Lineage n above m ∧ m.calledName? = some name ∧ SlotsBelowCalls above := by
  constructor
  · intro h
    induction n using childInduction with
    | step n ih =>
      rcases retains_iff.1 h with ⟨isCall, m, hm, called⟩ | ⟨free, c, hc, below⟩
      · obtain ⟨above, line⟩ := mem_walk_iff_lineage.1 hm
        refine ⟨above, m, line, called, ?_⟩
        have notSlot : n.isSlot = false := isSlot_eq_false_of_isCall isCall
        cases line with
        | refl => exact fun before s after eq _ => by simp at eq
        | down => exact slotsBelowCalls_cons.2 ⟨notSlot, .inl isCall⟩
      · obtain ⟨above, m, line, called, slots⟩ := ih c hc below
        rw [isSlotOrCall, Bool.or_eq_false_iff] at free
        exact ⟨n :: above, m, .down hc line, called, slotsBelowCalls_cons.2 ⟨free.1, .inr slots⟩⟩
  · rintro ⟨above, m, line, called, slots⟩
    induction line with
    | refl n =>
      exact retains_iff.2 (.inl ⟨isCall_of_calledName? called, mentions_iff.2 (.inl called)⟩)
    | @down n c m above hc rest ih =>
      obtain ⟨notSlot, slots⟩ := slotsBelowCalls_cons.1 slots
      by_cases isCall : n.isCall = true
      · have hm : m ∈ n.walk := mem_walk_iff_lineage.2 ⟨n :: above, .down hc rest⟩
        exact retains_iff.2 (.inl ⟨isCall, m, hm, called⟩)
      · refine retains_iff.2 (.inr ⟨?_, c, hc, ih called (slots.resolve_left isCall)⟩)
        rw [isSlotOrCall, notSlot, Bool.false_or]
        simpa using isCall

theorem mentions_block {pos : Position} {nodes : List Node} {name : String} :
    (block pos nodes).Mentions name ↔ ∃ n ∈ nodes, n.Mentions name := by
  have notCalled : (block pos nodes).calledName? = none := rfl
  rw [mentions_iff, notCalled]
  simp [children, block]

theorem retains_block {pos : Position} {nodes : List Node} {name : String} :
    (block pos nodes).Retains name ↔ ∃ n ∈ nodes, n.Retains name := by
  have notCall : (block pos nodes).isCall = false := rfl
  have notStop : (block pos nodes).isSlotOrCall = false := rfl
  rw [retains_iff, notCall, notStop]
  simp [children, block]

/-- A node that calls the same components as another, in the same places, and has the same tags. -/
structure Alike (n m : Node) : Prop where
  isWellFormed : n.isWellFormed = true → m.isWellFormed = true
  stems : ∀ page, StemsFrom page n → StemsFrom page m
  mentions : ∀ name, m.Mentions name ↔ n.Mentions name
  retains : ∀ name, m.Retains name ↔ n.Retains name

theorem Alike.refl (n : Node) : Alike n n := ⟨id, fun _ => id, fun _ => .rfl, fun _ => .rfl⟩

theorem alike_of_label?_eq {n m : Node} (wf : n.isWellFormed = true → m.isWellFormed = true)
    (label : m.label? = n.label?) (pos : m.pos = n.pos)
    (below : List.Forall₂ Alike n.children m.children) : Alike n m := by
  have called : m.calledName? = n.calledName? := calledName?_eq_of_label?_eq label
  have isCall : m.isCall = n.isCall := isCall_eq_of_label?_eq label
  have stop : m.isSlotOrCall = n.isSlotOrCall := by
    rw [isSlotOrCall, isSlot_eq_of_label?_eq label, isCall, isSlotOrCall]
  have anywhere : ∀ {p : Node → Prop}, (∀ c c', Alike c c' → (p c' ↔ p c)) →
      ((∃ c ∈ m.children, p c) ↔ ∃ c ∈ n.children, p c) := by
    intro p same
    constructor
    · rintro ⟨c', hc', holds⟩
      obtain ⟨c, hc, alike⟩ := exists_of_forall₂_right below hc'
      exact ⟨c, hc, (same c c' alike).1 holds⟩
    · rintro ⟨c, hc, holds⟩
      obtain ⟨c', hc', alike⟩ := exists_of_forall₂_left below hc
      exact ⟨c', hc', (same c c' alike).2 holds⟩
  have mentions : ∀ name, m.Mentions name ↔ n.Mentions name := by
    intro name
    rw [mentions_iff, mentions_iff, called, anywhere fun c c' alike => alike.mentions name]
  have stems : ∀ page, StemsFrom page n → StemsFrom page m := by
    intro page h
    refine stemsFrom_of_mark?_eq h (mark?_eq_of_label?_eq label pos) fun c' hc' => ?_
    obtain ⟨c, hc, alike⟩ := exists_of_forall₂_right below hc'
    exact alike.stems page (h.of_mem_children hc)
  refine ⟨wf, stems, mentions, fun name => ?_⟩
  rw [retains_iff, retains_iff, mentions name, isCall, stop,
    anywhere fun c c' alike => alike.retains name]

end PugComponents.Node

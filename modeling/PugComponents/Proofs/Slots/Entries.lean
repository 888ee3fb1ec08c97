import PugComponents.Proofs.Definition.Slots
import PugComponents.Proofs.Slots.Provided
import PugComponents.Proofs.Slots.Resolution

/-! What a call provides, entry by entry. The slots directly below the call come first, each with its
content under its name, and then what stands in no slot, under the name of the default slot. The call is
refused exactly if a name came twice that way, so that of two contents for one slot neither wins. -/

namespace PugComponents

open Node Outcome

namespace Node

def contents (n : Node) : List Node := n.children.flatMap children

def slots (n : Node) : List Node := n.contents.filter isSlot

end Node

namespace Provided

variable {r : Reporter}

structure Supplies (r : Reporter) (slot : Node) (entry : String × Node) : Prop where
  name : slot.slotName r = .ok entry.1
  content : entry.2 = slot.slotContent

/-- The entry for what stands in no slot, if there is anything but comments. -/
def bareEntry (call : Node) : Provided :=
  if bareNodes call.contents = [] then []
  else [(defaultSlot, Node.block call.pos (bareNodes call.contents))]

def repeated (r : Reporter) (name : String) (n : Node) : Failure :=
  .diagnostic (r.report (.duplicateSlotProvided name) (some n.location))

/-- What is reported on a call: the first slot with the name of one before it, or else the call, with
bare content beside a slot for the default. -/
inductive Refused (r : Reporter) (call : Node) : Failure → Prop where
  | slot {early after : List Node} {first later : Node} {name : String}
    (slots : call.slots = early ++ later :: after) (differ : (early.map (slotName r)).Nodup)
    (member : first ∈ early) (named : first.slotName r = .ok name)
    (named' : later.slotName r = .ok name) : Refused r call (repeated r name later)
  | bare {slot : Node} (differ : (call.slots.map (slotName r)).Nodup) (member : slot ∈ call.slots)
    (named : slot.slotName r = .ok defaultSlot) (bare : bareNodes call.contents ≠ []) :
    Refused r call (repeated r defaultSlot call)

section Lists

theorem has_iff {p : Provided} {name : String} : p.has name = true ↔ name ∈ p.map Prod.fst := by
  simp [has, List.any_eq_true]

theorem has_eq_false_iff {p : Provided} {name : String} :
    p.has name = false ↔ name ∉ p.map Prod.fst := by
  rw [← has_iff, Bool.not_eq_true]

theorem lookup_eq_of_mem {p : Provided} (nodup : (p.map Prod.fst).Nodup) {entry : String × Node}
    (member : entry ∈ p) : p.lookup entry.1 = some entry.2 := by
  induction p with
  | nil => cases member
  | cons first rest ih =>
    rw [List.map_cons, List.nodup_cons] at nodup
    rcases List.mem_cons.1 member with rfl | member
    · exact List.lookup_cons_self
    · have other : (entry.1 == first.1) = false :=
        beq_false_of_ne fun same => nodup.1 (same ▸ List.mem_map_of_mem member)
      rw [List.lookup_cons, other]
      exact ih nodup.2 member

theorem bareNodes_ne_nil_iff {nodes : List Node} :
    bareNodes nodes ≠ [] ↔ ∃ n ∈ nodes, n.isSlot = false ∧ n.isComment = false := by
  simp [bareNodes, List.filter_eq_nil_iff]

end Lists

section Slots

theorem exists_supplies {slots : List Node} (named : ∀ slot ∈ slots, ∃ name, slot.slotName r = .ok name) :
    ∃ given, List.Forall₂ (Supplies r) slots given := by
  induction slots with
  | nil => exact ⟨[], .nil⟩
  | cons slot slots ih =>
    rw [List.forall_mem_cons] at named
    obtain ⟨⟨name, first⟩, named⟩ := named
    obtain ⟨given, rest⟩ := ih named
    exact ⟨(name, slot.slotContent) :: given, .cons ⟨first, rfl⟩ rest⟩

variable {slots : List Node} {given : Provided}

theorem map_slotName_of_supplies (supplied : List.Forall₂ (Supplies r) slots given) :
    slots.map (slotName r) = (given.map Prod.fst).map .ok := by
  induction supplied with
  | nil => rfl
  | cons first _ ih => rw [List.map_cons, List.map_cons, List.map_cons, first.name, ih]

theorem nodup_slotName_iff (supplied : List.Forall₂ (Supplies r) slots given) :
    (slots.map (slotName r)).Nodup ↔ (given.map Prod.fst).Nodup := by
  rw [map_slotName_of_supplies supplied]
  exact List.nodup_map_iff fun _ _ => Except.ok.inj

theorem mem_names_iff (supplied : List.Forall₂ (Supplies r) slots given) {name : String} :
    name ∈ given.map Prod.fst ↔ ∃ slot ∈ slots, slot.slotName r = .ok name := by
  rw [← List.mem_map (f := slotName r), map_slotName_of_supplies supplied, List.mem_map_of_injective]
  exact fun _ _ => Except.ok.inj

theorem addSlots_cons {before : Provided} {slot : Node} {slots : List Node} {entry : String × Node}
    (supplies : Supplies r slot entry) : addSlots r before (slot :: slots) =
      if before.has entry.1 then .error (repeated r entry.1 slot)
      else addSlots r (before ++ [entry]) slots := by
  rw [addSlots, supplies.name]
  obtain ⟨name, content⟩ := entry
  obtain rfl : content = slot.slotContent := supplies.content
  rfl

theorem addSlots_append {before : Provided} (supplied : List.Forall₂ (Supplies r) slots given)
    (nodup : ((before ++ given).map Prod.fst).Nodup) (more : List Node) :
    addSlots r before (slots ++ more) = addSlots r (before ++ given) more := by
  induction supplied generalizing before with
  | nil => rw [List.append_nil, List.nil_append]
  | @cons slot entry slots given first _ ih =>
    have fresh : before.has entry.1 = false := by
      rw [has_eq_false_iff]
      simp only [List.map_append, List.map_cons, List.nodup_middle, List.nodup_cons] at nodup
      exact fun member => nodup.1 (List.mem_append_left _ member)
    rw [List.cons_append, addSlots_cons first, fresh, if_neg Bool.false_ne_true, ih (by simpa using nodup),
      List.append_assoc, List.singleton_append]

/-- The slots below a call are taken as they are, if their names differ; if not, the first repetition
ends it. -/
theorem addSlots_of_supplies (supplied : List.Forall₂ (Supplies r) slots given) :
    ((given.map Prod.fst).Nodup → addSlots r [] slots = .ok given) ∧
    (¬(given.map Prod.fst).Nodup → ∃ early first later after name, slots = early ++ later :: after ∧
      (early.map (slotName r)).Nodup ∧ first ∈ early ∧ first.slotName r = .ok name ∧
      later.slotName r = .ok name ∧ addSlots r [] slots = .error (repeated r name later)) := by
  constructor
  · intro nodup
    have fresh : ((([] : Provided) ++ given).map Prod.fst).Nodup := nodup
    simpa [addSlots] using addSlots_append supplied fresh []
  · intro repeats
    rw [← nodup_slotName_iff supplied] at repeats
    obtain ⟨early, first, later, after, rfl, nodup, member, same⟩ :=
      Definition.exists_first_repeat repeats
    obtain ⟨entries, others, rfl, early', late⟩ := exists_split_of_forall₂ supplied
    obtain ⟨entry, supplies⟩ : ∃ entry, Supplies r later entry := by
      cases late with
      | cons supplies _ => exact ⟨_, supplies⟩
    have named : first.slotName r = .ok entry.1 := same.trans supplies.name
    have known : has entries entry.1 = true :=
      has_iff.2 ((mem_names_iff early').2 ⟨first, member, named⟩)
    have fresh : ((([] : Provided) ++ entries).map Prod.fst).Nodup := (nodup_slotName_iff early').1 nodup
    refine ⟨early, first, later, after, entry.1, rfl, nodup, member, named, supplies.name, ?_⟩
    rw [addSlots_append early' fresh, List.nil_append, addSlots_cons supplies, known, if_pos rfl]

end Slots

section Calls

variable {call : Node} {element : Element}

theorem ofCall_eq_ofNodes (tag : call.tag? = some element)
    (blocks : ∀ b ∈ call.children, b.isBlock = true) : ofCall r call = ofNodes r call call.contents := by
  obtain ⟨pos, block, rfl⟩ := exists_owner_of_tag? tag
  cases block with
  | none => rfl
  | some b =>
    obtain ⟨pos', head, nodes, rfl⟩ := exists_seq_of_isBlock (blocks b (by simp [children]))
    simp [ofCall, block?, nodes?, contents, children]

theorem ofNodes_of_addSlots {given : Provided}
    (run : addSlots r [] call.slots = .ok given) : ofNodes r call call.contents =
      if bareNodes call.contents ≠ [] ∧ defaultSlot ∈ given.map Prod.fst then
        .error (repeated r defaultSlot call)
      else .ok (given ++ bareEntry call) := by
  have slots : addSlots r [] (call.contents.filter isSlot) = .ok given := run
  rw [ofNodes, slots, bareEntry]
  cases bareNodes call.contents with
  | nil => simp
  | cons n ns =>
    simp only [← has_iff, ne_eq, reduceCtorEq, not_false_eq_true, true_and, List.isEmpty_cons]
    rfl

/-- Two contents for one slot: two slots with one name, or one for the default slot beside what stands in
none. -/
def Clashes (call : Node) (given : Provided) : Prop :=
  ¬(given.map Prod.fst).Nodup ∨ defaultSlot ∈ given.map Prod.fst ∧ bareNodes call.contents ≠ []

section Outcomes

variable {given : Provided} (tag : call.tag? = some element)
  (blocks : ∀ b ∈ call.children, b.isBlock = true)
  (supplied : List.Forall₂ (Supplies r) call.slots given)
include tag blocks supplied

theorem exists_refused_of_clashes (clashes : Clashes call given) :
    ∃ f, Refused r call f ∧ ofCall r call = .error f := by
  rw [ofCall_eq_ofNodes tag blocks]
  by_cases nodup : (given.map Prod.fst).Nodup
  · obtain ⟨default, bare⟩ := clashes.resolve_left (not_not_intro nodup)
    obtain ⟨slot, member, named⟩ := (mem_names_iff supplied).1 default
    refine ⟨_, .bare ((nodup_slotName_iff supplied).2 nodup) member named bare, ?_⟩
    rw [ofNodes_of_addSlots ((addSlots_of_supplies supplied).1 nodup), if_pos ⟨bare, default⟩]
  · obtain ⟨early, first, later, after, name, slots, differ, member, named, named', run⟩ :=
      (addSlots_of_supplies supplied).2 nodup
    refine ⟨_, .slot slots differ member named named', ?_⟩
    have run : addSlots r [] (call.contents.filter isSlot) = .error (repeated r name later) := run
    rw [ofNodes, run]
    rfl

theorem ofCall_of_not_clashes (apart : ¬Clashes call given) :
    ofCall r call = .ok (given ++ bareEntry call) ∧
      ((given ++ bareEntry call).map Prod.fst).Nodup := by
  obtain ⟨nodup, free⟩ := not_or.1 apart
  rw [not_not] at nodup
  rw [ofCall_eq_ofNodes tag blocks, ofNodes_of_addSlots ((addSlots_of_supplies supplied).1 nodup),
    if_neg (mt And.symm free), bareEntry]
  refine ⟨rfl, ?_⟩
  split
  · rwa [List.append_nil]
  · rename_i bare
    rw [List.map_append, List.map_singleton, ← List.concat_eq_append]
    exact nodup.concat fun default => free ⟨default, bare⟩

end Outcomes

/-- What a call provides. It is refused exactly if two slots directly below it have one name, or if one
names the default slot and there is also content that stands in none; what is reported is the first
repetition. Otherwise every slot is the entry of its name, all that stands in no slot is the entry of the
default slot in its order, and there is nothing else. -/
theorem entries_of_ofCall (tag : call.tag? = some element)
    (blocks : ∀ b ∈ call.children, b.isBlock = true)
    (named : ∀ slot ∈ call.slots, ∃ name, slot.slotName r = .ok name) :
    ((∃ f, ofCall r call = .error f) ↔ ¬(call.slots.map (slotName r)).Nodup ∨
      (∃ slot ∈ call.slots, slot.slotName r = .ok defaultSlot) ∧
        ∃ n ∈ call.contents, n.isSlot = false ∧ n.isComment = false) ∧
    (∀ f, ofCall r call = .error f → Refused r call f) ∧
    ∀ p, ofCall r call = .ok p → (p.map Prod.fst).Nodup ∧
      (∃ given, List.Forall₂ (Supplies r) call.slots given ∧ p = given ++ bareEntry call) ∧
      (∀ slot ∈ call.slots, ∀ name, slot.slotName r = .ok name →
        p.lookup name = some slot.slotContent) ∧
      ∀ entry ∈ bareEntry call, p.lookup entry.1 = some entry.2 := by
  obtain ⟨given, supplied⟩ := exists_supplies named
  rw [nodup_slotName_iff supplied, ← mem_names_iff supplied, ← bareNodes_ne_nil_iff]
  by_cases clashes : Clashes call given
  · obtain ⟨failure, refused, run⟩ := exists_refused_of_clashes tag blocks supplied clashes
    rw [run]
    exact ⟨⟨fun _ => clashes, fun _ => ⟨failure, rfl⟩⟩, fun f same => Except.error.inj same ▸ refused,
      nofun⟩
  · obtain ⟨run, nodup⟩ := ofCall_of_not_clashes tag blocks supplied clashes
    rw [run]
    refine ⟨⟨nofun, fun h => absurd h clashes⟩, nofun, ?_⟩
    rintro p ⟨⟩
    have found : ∀ entry ∈ given ++ bareEntry call,
        (given ++ bareEntry call).lookup entry.1 = some entry.2 := fun _ => lookup_eq_of_mem nodup
    refine ⟨nodup, ⟨given, supplied, rfl⟩, ?_, fun entry member =>
      found entry (List.mem_append_right _ member)⟩
    intro slot member name named
    obtain ⟨entry, given, supplies⟩ := exists_of_forall₂_left supplied member
    obtain rfl : entry.1 = name := Except.ok.inj (supplies.name.symm.trans named)
    rw [found entry (List.mem_append_left _ given), supplies.content]

end Calls

def iconOnly : Node :=
  .owner {} (.tag { label := .str "slot", attrs := [{ name := .str "name", val := .str "'icon'" }] }) none

def footNote : Node := namedSlot "foot" [bareCall "Note" []]

def panelCall : Node :=
  bareCall "Panel" [bareCall "Head" [], iconOnly, .leaf {} (.comment (.str "why") (.bool true)),
    footNote, bareCall "Tail" []]

theorem entries_panelCall : ∃ p, ofCall {} panelCall = .ok p ∧ (p.map Prod.fst).Nodup ∧
    p.lookup "icon" = some (emptyBlock {}) ∧
    p.lookup "foot" = some (block {} [bareCall "Note" []]) ∧
    p.lookup "default" = some (block {} [bareCall "Head" [], bareCall "Tail" []]) := by
  have slots : panelCall.slots = [iconOnly, footNote] := rfl
  have icon : iconOnly.slotName {} = .ok "icon" := rfl
  have foot : footNote.slotName {} = .ok "foot" := rfl
  have named : ∀ slot ∈ panelCall.slots, ∃ name, slot.slotName {} = .ok name := by
    simp [slots, icon, foot]
  have tag : panelCall.tag? = some { label := .str "Panel" } := rfl
  obtain ⟨refused, -, accepted⟩ := entries_of_ofCall tag (by decide) named
  cases run : ofCall {} panelCall with
  | error f =>
    have clash := refused.1 ⟨f, run⟩
    simp [slots, icon, foot, defaultSlot] at clash
  | ok p =>
    obtain ⟨nodup, -, provided, bare⟩ := accepted p run
    refine ⟨p, rfl, nodup, ?_, ?_, bare ("default", _) (List.mem_singleton_self _)⟩
    · exact provided iconOnly (by simp [slots]) "icon" icon
    · exact provided footNote (by simp [slots]) "foot" foot

end Provided

end PugComponents

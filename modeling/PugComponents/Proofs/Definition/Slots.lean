import PugComponents.Proofs.Definition.Placeholders
import PugComponents.Proofs.Slots.Termination
import Mathlib.Data.List.Forall2
import Mathlib.Data.List.Induction
import Mathlib.Data.List.Nodup

/-! The slots that a body offers. They are collected in visiting order, and the collection ends at the
first slot that has the name and the label of one before it. If there is none, the first slot of
every name is what the body offers. -/

namespace PugComponents

open Node Outcome

namespace Definition

variable {r : Reporter}

/-- What a clash of slots is about. -/
def key (slot : SlotDefinition) : String × String := (slot.name, slot.path)

theorem find?_eq_none_iff_key {seen : List SlotDefinition} {slot : SlotDefinition} :
    (seen.find? fun s => s.name == slot.name && s.path == slot.path) = none ↔
      key slot ∉ seen.map key := by
  simp only [List.find?_eq_none, Bool.and_eq_true, beq_iff_eq, List.mem_map, key, Prod.mk.injEq,
    not_exists, not_and]

theorem find?_eq_some_of_key {seen : List SlotDefinition} (nodup : (seen.map key).Nodup)
    {first later : SlotDefinition} (member : first ∈ seen) (same : key first = key later) :
    (seen.find? fun s => s.name == later.name && s.path == later.path) = some first := by
  have sound : ∀ s : SlotDefinition, (s.name == later.name && s.path == later.path) = true ↔
      key s = key later := by simp [key]
  cases found : seen.find? fun s => s.name == later.name && s.path == later.path with
  | none =>
    exact absurd (same ▸ List.mem_map_of_mem member) (find?_eq_none_iff_key.1 found)
  | some s =>
    have hit := List.find?_some found
    have same' : key s = key first := ((sound s).1 hit).trans same.symm
    rw [List.inj_on_of_nodup_map nodup (List.mem_of_find?_eq_some found) member same']

structure Declares (r : Reporter) (found : Route × Node) (slot : SlotDefinition) : Prop where
  name : found.2.slotName r = .ok slot.name
  path : slot.path = pathLabel found.1
  location : slot.location = (found.2.location.withPath slot.path).withFilename r.filename
  content : slot.content = found.2.children.head?.getD (emptyBlock found.2.pos)

def visitOf (found : Route × Node) : Visit := .ok ⟨found.2, markers 0 found.1⟩

theorem slotOf_of_declares {found : Route × Node} {slot : SlotDefinition}
    (isSlot : found.2.isSlot = true) (declares : Declares r found slot) :
    slotOf r ⟨found.2, markers 0 found.1⟩ = .ok slot := by
  obtain ⟨route, n⟩ := found
  obtain ⟨name, path, location, content⟩ := declares
  obtain ⟨pos, element, block, rfl, -⟩ := exists_tag_of_isTagNamed isSlot
  obtain ⟨name', content', location', path'⟩ := slot
  dsimp only at name path location content
  subst path location content
  rw [slotOf, name]
  cases block <;> rfl

theorem declares_of_slotOf {found : Route × Node} {slot : SlotDefinition}
    (isSlot : found.2.isSlot = true) (h : slotOf r ⟨found.2, markers 0 found.1⟩ = .ok slot) :
    Declares r found slot := by
  obtain ⟨route, n⟩ := found
  obtain ⟨pos, element, block, rfl, -⟩ := exists_tag_of_isTagNamed isSlot
  simp only [slotOf, bind_eq_ok, pure_eq_ok] at h
  obtain ⟨name, named, rfl⟩ := h
  exact ⟨named, rfl, rfl, by cases block <;> rfl⟩

theorem exists_declares {found : Route × Node} {name : String}
    (named : found.2.slotName r = .ok name) : ∃ slot, Declares r found slot :=
  ⟨{ name := name
     content := found.2.children.head?.getD (emptyBlock found.2.pos)
     location := (found.2.location.withPath (pathLabel found.1)).withFilename r.filename
     path := pathLabel found.1 }, named, rfl, rfl, rfl⟩

def clash (r : Reporter) (first later : SlotDefinition) : Failure :=
  .diagnostic (r.report (.duplicateSlotDefinition later.name (some first.location))
    (some later.location))

section Collection

variable {found : List (Route × Node)} {seen slots : List SlotDefinition}

theorem collectSlots_append (isSlot : ∀ f ∈ found, f.2.isSlot = true)
    (declared : List.Forall₂ (Declares r) found slots) (nodup : ((seen ++ slots).map key).Nodup)
    (visits : List Visit) :
    collectSlots r seen (found.map visitOf ++ visits) = collectSlots r (seen ++ slots) visits := by
  induction declared generalizing seen with
  | nil => simp
  | @cons f slot found slots declares _ ih =>
    rw [List.forall_mem_cons] at isSlot
    rw [List.append_cons seen] at nodup
    have fresh : key slot ∉ seen.map key := by
      intro member
      simp only [List.map_append, List.nodup_append] at nodup
      exact nodup.1.2.2 _ member _ (by simp) rfl
    simp only [List.map_cons, List.cons_append, visitOf, collectSlots]
    rw [slotOf_of_declares isSlot.1 declares]
    simp only [bind, Except.bind, find?_eq_none_iff_key.2 fresh]
    rw [List.append_cons seen slot slots]
    exact ih isSlot.2 nodup

theorem collectSlots_of_clash {before after : List (Route × Node)} {f : Route × Node}
    (isSlot : ∀ f' ∈ before ++ f :: after, f'.2.isSlot = true)
    (declared : List.Forall₂ (Declares r) before slots) (nodup : (slots.map key).Nodup)
    {first later : SlotDefinition} (declares : Declares r f later) (member : first ∈ slots)
    (same : key first = key later) :
    collectSlots r [] ((before ++ f :: after).map visitOf) = .error (clash r first later) := by
  rw [List.map_append, collectSlots_append (fun f' hf => isSlot f' (by simp [hf])) declared
    (by simpa using nodup)]
  simp only [List.map_cons, visitOf, collectSlots, List.nil_append]
  rw [slotOf_of_declares (isSlot f (by simp)) declares]
  simp only [bind, Except.bind, find?_eq_some_of_key nodup member same]
  rfl

theorem declares_of_collectSlots {out : List SlotDefinition} (isSlot : ∀ f ∈ found, f.2.isSlot = true)
    (h : collectSlots r seen (found.map visitOf) = .ok out) :
    ∃ slots, out = seen ++ slots ∧ List.Forall₂ (Declares r) found slots := by
  induction found generalizing seen with
  | nil =>
    simp only [List.map_nil, collectSlots, Except.ok.injEq] at h
    exact ⟨[], by simp [h], .nil⟩
  | cons f found ih =>
    rw [List.forall_mem_cons] at isSlot
    simp only [List.map_cons, visitOf, collectSlots, bind_eq_ok] at h
    obtain ⟨slot, made, h⟩ := h
    split at h
    · cases h
    · obtain ⟨slots, rfl, declared⟩ := ih isSlot.2 h
      exact ⟨slot :: slots, by simp, .cons (declares_of_slotOf isSlot.1 made) declared⟩

end Collection

theorem exists_first_repeat {α β : Type} {f : α → β} {l : List α} (h : ¬(l.map f).Nodup) :
    ∃ before first later after, l = before ++ later :: after ∧ (before.map f).Nodup ∧
      first ∈ before ∧ f first = f later := by
  induction l using List.reverseRecOn with
  | nil => simp at h
  | append_singleton l a ih =>
    by_cases nodup : (l.map f).Nodup
    · have repeated : f a ∈ l.map f := by
        by_contra fresh
        refine h ?_
        rw [List.map_append, List.map_singleton, ← List.concat_eq_append]
        exact nodup.concat fresh
      obtain ⟨first, member, same⟩ := List.mem_map.1 repeated
      exact ⟨l, first, a, [], rfl, nodup, member, same⟩
    · obtain ⟨before, first, later, after, rfl, rest⟩ := ih nodup
      exact ⟨before, first, later, after ++ [a], by simp, rest⟩

section Names

theorem filter_firstOfName (p : String → Bool) (slots : List SlotDefinition) :
    (firstOfName slots).filter (fun s => p s.name) = firstOfName (slots.filter fun s => p s.name) := by
  induction slots with
  | nil => rfl
  | cons s ss ih =>
    rw [firstOfName, List.filter_cons, List.filter_cons, List.filter_filter]
    cases keep : p s.name with
    | true =>
      simp only [if_true, firstOfName, ← ih, List.filter_filter, Bool.and_comm]
    | false =>
      have absent : ∀ t : SlotDefinition, (p t.name && t.name != s.name) = p t.name := by
        intro t
        by_cases same : t.name = s.name <;> simp [same, keep]
      simp only [absent, ih, Bool.false_eq_true, if_false]

theorem map_name_firstOfName (slots : List SlotDefinition) :
    (firstOfName slots).map (·.name) = (slots.map (·.name)).eraseDups := by
  match slots with
  | [] => rfl
  | s :: ss =>
    have ih := map_name_firstOfName (ss.filter fun t => t.name != s.name)
    rw [firstOfName, filter_firstOfName (· != s.name), List.map_cons, ih, List.map_cons,
      List.eraseDups_cons, List.filter_map]
    rfl
termination_by slots.length
decreasing_by
  have := List.length_filter_le (fun t : SlotDefinition => t.name != s.name) ss
  simp only [List.length_cons]
  omega

theorem find?_of_mem_firstOfName {slots : List SlotDefinition} {slot : SlotDefinition}
    (h : slot ∈ firstOfName slots) : (slots.find? fun s => s.name == slot.name) = some slot := by
  induction slots with
  | nil => cases h
  | cons s ss ih =>
    rw [firstOfName, List.mem_cons, List.mem_filter] at h
    rcases h with rfl | ⟨member, other⟩
    · simp
    · have differs : s.name ≠ slot.name := fun same => by simp [same] at other
      rw [List.find?_cons_of_neg (by simpa using differs)]
      exact ih member

end Names

section Offered

variable {body : Node}

theorem placeholders_eq_visits (wf : body.isWellFormed = true) :
    body.placeholders [] = body.slotRoutes.map visitOf := by
  rw [placeholders_eq body wf, routeVisits]
  rfl

theorem exists_route_iff {slot : Node} :
    (∃ f ∈ body.slotRoutes, f.2 = slot) ↔ slot ∈ body.walkUntil isCall ∧ slot.isSlot = true := by
  rw [← List.mem_filter, ← map_snd_slotRoutes, List.mem_map]

theorem exists_declared
    (named : ∀ m ∈ body.walkUntil isCall, m.isSlot = true → ∃ name, m.slotName r = .ok name) :
    ∃ slots, List.Forall₂ (Declares r) body.slotRoutes slots := by
  have each : ∀ f ∈ body.slotRoutes, ∃ slot, Declares r f slot := by
    intro f hf
    obtain ⟨reached, isSlot⟩ := exists_route_iff.1 ⟨f, hf, rfl⟩
    obtain ⟨name, named⟩ := named f.2 reached isSlot
    exact exists_declares named
  generalize body.slotRoutes = found at each
  induction found with
  | nil => exact ⟨[], .nil⟩
  | cons f found ih =>
    rw [List.forall_mem_cons] at each
    obtain ⟨slot, declares⟩ := each.1
    obtain ⟨slots, declared⟩ := ih each.2
    exact ⟨slot :: slots, .cons declares declared⟩

theorem declares_of_collected (wf : body.isWellFormed = true) {slots : List SlotDefinition}
    (collected : collectSlots r [] (body.placeholders []) = .ok slots) :
    List.Forall₂ (Declares r) body.slotRoutes slots := by
  rw [placeholders_eq_visits wf] at collected
  obtain ⟨slots', rfl, declared⟩ :=
    declares_of_collectSlots (fun f hf => (mem_slotRoutes.1 hf).2) collected
  exact declared

theorem exists_slotName_of_collected (wf : body.isWellFormed = true) {slots : List SlotDefinition}
    (collected : collectSlots r [] (body.placeholders []) = .ok slots) :
    ∀ s ∈ body.walkUntil isCall, s.isSlot = true → ∃ name, s.slotName r = .ok name := by
  intro s hs isSlot
  obtain ⟨f, hf, rfl⟩ := exists_route_iff.2 ⟨hs, isSlot⟩
  obtain ⟨slot, -, declares⟩ := exists_of_forall₂_left (declares_of_collected wf collected) hf
  exact ⟨slot.name, declares.name⟩

theorem mem_names_iff (wf : body.isWellFormed = true) {slots : List SlotDefinition}
    (collected : collectSlots r [] (body.placeholders []) = .ok slots) {name : String} :
    name ∈ (firstOfName slots).map (·.name) ↔
      ∃ s ∈ body.walkUntil isCall, s.isSlot = true ∧ s.slotName r = .ok name := by
  have declared := declares_of_collected wf collected
  rw [map_name_firstOfName, List.mem_eraseDups, List.mem_map]
  constructor
  · rintro ⟨slot, member, rfl⟩
    obtain ⟨f, hf, declares⟩ := exists_of_forall₂_right declared member
    obtain ⟨reached, isSlot⟩ := exists_route_iff.1 ⟨f, hf, rfl⟩
    exact ⟨f.2, reached, isSlot, declares.name⟩
  · rintro ⟨s, reached, isSlot, named⟩
    obtain ⟨f, hf, rfl⟩ := exists_route_iff.2 ⟨reached, isSlot⟩
    obtain ⟨slot, member, declares⟩ := exists_of_forall₂_left declared hf
    exact ⟨slot, member, Except.ok.inj (declares.name.symm.trans named)⟩

theorem collectSlots_of_nodup (wf : body.isWellFormed = true) {slots : List SlotDefinition}
    (declared : List.Forall₂ (Declares r) body.slotRoutes slots) (nodup : (slots.map key).Nodup) :
    collectSlots r [] (body.placeholders []) = .ok slots := by
  have fresh : (([] ++ slots).map key).Nodup := nodup
  have run := collectSlots_append (fun f hf => (mem_slotRoutes.1 hf).2) declared fresh []
  rw [placeholders_eq_visits wf]
  simpa [collectSlots] using run

theorem exists_clash_of_repeats (wf : body.isWellFormed = true) {slots : List SlotDefinition}
    (declared : List.Forall₂ (Declares r) body.slotRoutes slots) (repeats : ¬(slots.map key).Nodup) :
    ∃ before first later after, slots = before ++ later :: after ∧ (before.map key).Nodup ∧
      first ∈ before ∧ key first = key later ∧
      collectSlots r [] (body.placeholders []) = .error (clash r first later) := by
  obtain ⟨before, first, later, after, rfl, nodup, member, same⟩ := exists_first_repeat repeats
  refine ⟨before, first, later, after, rfl, nodup, member, same, ?_⟩
  have isSlot : ∀ f ∈ body.slotRoutes, f.2.isSlot = true := fun f hf => (mem_slotRoutes.1 hf).2
  have early := List.forall₂_take_append _ _ _ declared
  have late := List.forall₂_drop_append _ _ _ declared
  obtain ⟨f, others, declares, -, rest⟩ := List.forall₂_cons_right_iff.1 late
  have split : body.slotRoutes = body.slotRoutes.take before.length ++ f :: others := by
    rw [← rest, List.take_append_drop]
  rw [split] at isSlot
  rw [placeholders_eq_visits wf, split]
  exact collectSlots_of_clash isSlot early nodup declares member same

/-- The slots of a body are collected from the placeholders outside of calls, in visiting order and with
the labels on their routes. If two of them agree in name and label, the first one that repeats an
earlier one is refused, and reported with that one. If not, the body offers every name once, as its
first placeholder declares it. -/
theorem collection_of_slotRoutes (wf : body.isWellFormed = true)
    (named : ∀ m ∈ body.walkUntil isCall, m.isSlot = true → ∃ name, m.slotName r = .ok name) :
    ∃ slots, List.Forall₂ (Declares r) body.slotRoutes slots ∧
    ((∃ f, collectSlots r [] (body.placeholders []) = .error f) ↔ ¬(slots.map key).Nodup) ∧
    (∀ f, collectSlots r [] (body.placeholders []) = .error f →
      ∃ before first later after, slots = before ++ later :: after ∧ (before.map key).Nodup ∧
        first ∈ before ∧ key first = key later ∧ f = clash r first later) ∧
    ((slots.map key).Nodup → collectSlots r [] (body.placeholders []) = .ok slots) ∧
    (firstOfName slots).map (·.name) = (slots.map (·.name)).eraseDups ∧
    ∀ slot ∈ firstOfName slots, (slots.find? fun s => s.name == slot.name) = some slot := by
  obtain ⟨slots, declared⟩ := exists_declared named
  have fails : ∀ f, collectSlots r [] (body.placeholders []) = .error f → ¬(slots.map key).Nodup := by
    intro f run nodup
    rw [collectSlots_of_nodup wf declared nodup] at run
    cases run
  refine ⟨slots, declared, ⟨?_, ?_⟩, ?_, collectSlots_of_nodup wf declared, map_name_firstOfName slots,
    fun slot => find?_of_mem_firstOfName⟩
  · rintro ⟨f, run⟩
    exact fails f run
  · intro repeats
    obtain ⟨-, first, later, -, -, -, -, -, run⟩ := exists_clash_of_repeats wf declared repeats
    exact ⟨_, run⟩
  · intro f run
    obtain ⟨before, first, later, after, eq, nodup, member, same, run'⟩ :=
      exists_clash_of_repeats wf declared (fails f run)
    rw [run'] at run
    exact ⟨before, first, later, after, eq, nodup, member, same, (Except.error.inj run).symm⟩

/-- A slot in both branches of a test, and one behind it. -/
def branchingBody : Node :=
  block {} [.fork {} (.conditional (.str "ready")) (some (block {} [namedSlot "icon" []]))
    (some (block {} [namedSlot "icon" []])), namedSlot "foot" []]

theorem collection_branchingBody : ∃ slots,
    List.Forall₂ (Declares {}) branchingBody.slotRoutes slots ∧ (slots.map key).Nodup ∧
      collectSlots {} [] (branchingBody.placeholders []) = .ok slots ∧
      (firstOfName slots).map (·.name) = (slots.map (·.name)).eraseDups := by
  have fillable : branchingBody.Fillable {} := by decide +kernel
  obtain ⟨slots, declared, failure, -, succeeds, names, -⟩ :=
    collection_of_slotRoutes fillable.isWellFormed
      fun m hm isSlot => fillable.named m (mem_walk_of_mem_walkUntil hm) isSlot
  have nodup : (slots.map key).Nodup := by
    by_contra repeats
    obtain ⟨f, run⟩ := failure.2 repeats
    have ok : (collectSlots {} [] (branchingBody.placeholders [])).isOk = true := by decide +kernel
    rw [run] at ok
    cases ok
  exact ⟨slots, declared, nodup, succeeds nodup, names⟩

end Offered

end Definition

end PugComponents

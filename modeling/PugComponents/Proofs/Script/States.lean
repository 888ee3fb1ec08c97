import PugComponents.Script.Stacks
import Mathlib.Data.List.Basic

/-! The states of reading a script and the productions under way in them. A state that is reached over a
symbol holds productions that have just passed that symbol: they began with it, or they were under way in
the state before and waited for it. -/

namespace PugComponents.Script

namespace Tables

/-- What the look-up tables have to tell rightly: which productions begin with a symbol, and that the
production for a whole script is a single phrase and no part of another one. -/
structure IsIndexed (g : Tables) (start : Nat) : Prop where
  begins : ∀ symbol p, p ∈ g.beginning symbol → (g.production p).symbol? 0 = some symbol
  symbols_whole : (g.production whole).steps.toList.map Step.symbol = [.phrase start]
  firsts_size_le : g.firsts.size ≤ (g.production whole).head

variable {g : Tables} {start : Nat}

section Opened

theorem size_foldl {α β : Type} {f : Array α → β → Array α} (same : ∀ a b, (f a b).size = a.size)
    (a : Array α) (bs : List β) : (bs.foldl f a).size = a.size := by
  induction bs generalizing a with
  | nil => rfl
  | cons b bs ih => rw [List.foldl_cons, ih, same]

theorem size_openedBy (g : Tables) (items : Array Item) : (g.openedBy items).size = g.firsts.size := by
  unfold openedBy
  rw [size_foldl, Array.size_replicate]
  rintro opened ⟨after, n⟩
  dsimp only
  split
  · rfl
  · rw [size_foldl]
    rintro opened ⟨m, r⟩
    simp [addFollows]

end Opened

/-- A state that is given by its items, each of which has passed a step. Only the production for a whole
script may wait for its first. -/
structure IsSettled (g : Tables) (s : State) : Prop where
  eq : s = g.stateOf s.items
  passed : ∀ i ∈ s.items, i.dot = 0 ∧ i.production = whole ∨
    0 < i.dot ∧ ((g.production i.production).symbol? (i.dot - 1)).isSome = true

theorem isSettled_initial (g : Tables) : g.IsSettled g.initial where
  eq := rfl
  passed i hi := by
    simp only [initial, stateOf, List.mem_toArray, List.mem_singleton] at hi
    subst hi
    exact .inl ⟨rfl, rfl⟩

theorem IsSettled.eq_of_same {s s' : State} (h : g.IsSettled s) (h' : g.IsSettled s')
    (same : s.same s' = true) : s = s' := by
  have items : s.items = s'.items := by simpa [State.same] using same
  rw [h.eq, h'.eq, items]

/-- An item of the state behind a symbol has just passed the symbol. It began with it, or it was under way
in the state before. -/
structure Passes (g : Tables) (s : State) (symbol : Symbol) (i : Item) : Prop where
  pos : 0 < i.dot
  symbol : (g.production i.production).symbol? (i.dot - 1) = some symbol
  before : i.dot = 1 ∧ i.production ≠ whole ∨
    ∃ j ∈ s.items, j.production = i.production ∧ j.dot = i.dot - 1

theorem passes_of_goto? (indexed : g.IsIndexed start) {s s' : State} {symbol : Symbol}
    (settled : g.IsSettled s) (h : g.goto? s symbol = some s') {i : Item} (hi : i ∈ s'.items) :
    g.Passes s symbol i := by
  unfold goto? at h
  dsimp only at h
  split at h
  · cases h
  · obtain rfl := Option.some.inj h
    simp only [stateOf, Array.mem_append, Array.mem_filterMap] at hi
    rcases hi with ⟨p, hp, begun⟩ | ⟨j, hj, advanced⟩
    · obtain ⟨follows, opened, rfl⟩ := Option.map_eq_some_iff.1 begun
      refine ⟨Nat.one_pos, indexed.begins symbol p hp, .inl ⟨rfl, ?_⟩⟩
      -- the phrase for a whole script has a number that no state opens
      rintro (rfl : p = whole)
      have size : s.opened.size ≤ (g.production whole).head := by
        rw [settled.eq]
        exact Nat.le_trans (Nat.le_of_eq (g.size_openedBy s.items)) indexed.firsts_size_le
      simp [Array.getD, Nat.not_lt.2 size] at opened
    · split at advanced
      · rename_i next
        obtain rfl := Option.some.inj advanced
        exact ⟨Nat.succ_pos _, next, .inr ⟨j, hj, rfl, rfl⟩⟩
      · cases advanced

theorem isSettled_of_goto? (indexed : g.IsIndexed start) {s s' : State} {symbol : Symbol}
    (settled : g.IsSettled s) (h : g.goto? s symbol = some s') : g.IsSettled s' where
  eq := by
    unfold goto? at h
    dsimp only at h
    split at h
    · cases h
    · obtain rfl := Option.some.inj h
      rfl
  passed i hi := by
    have passes := passes_of_goto? indexed settled h hi
    exact .inr ⟨passes.pos, by rw [passes.symbol]; rfl⟩

section Actions

theorem items_addReduction {r : Reductions} {i j : Item} (h : j ∈ (g.addReduction r i).items) :
    j = i ∨ j ∈ r.items := by
  unfold addReduction at h
  dsimp only at h
  split at h
  · exact .inl (List.mem_singleton.1 h)
  · split at h
    · exact .inl (List.mem_singleton.1 h)
    · rcases List.mem_append.1 h with h | h
      · exact .inr h
      · exact .inl (List.mem_singleton.1 h)
    · exact .inr h

theorem mem_of_mem_reductions {items : List Item} {r : Reductions} {j : Item}
    (h : j ∈ (items.foldl g.addReduction r).items) : j ∈ items ∨ j ∈ r.items := by
  induction items generalizing r with
  | nil => exact .inr h
  | cons i items ih =>
    rcases ih h with h | h
    · exact .inl (List.mem_cons_of_mem _ h)
    · rcases items_addReduction h with rfl | h
      · exact .inl List.mem_cons_self
      · exact .inr h

theorem mem_items_of_reductions {s : State} {t : Nat} {j : Item}
    (h : j ∈ ((g.ending s t).foldl g.addReduction {}).items) : j ∈ s.items ∧ g.next? j = none := by
  rcases mem_of_mem_reductions h with h | h
  · simp only [ending, Array.mem_toList_iff, Array.mem_filter, Bool.and_eq_true, isComplete,
      Option.isNone_iff_eq_none] at h
    exact ⟨h.1, h.2.1⟩
  · cases h

def Warrants (g : Tables) (s : State) (t : Nat) : Action → Prop
  | .reduce p => ∃ i ∈ s.items, i.production = p ∧ g.next? i = none
  | .shift target => g.goto? s (.token t) = some target
  | .accept => ∃ i ∈ s.items, i.production = whole ∧ g.next? i = none

theorem warrants_of_mem_actions {s : State} {t : Nat} {a : Action} (h : a ∈ g.actions s t) :
    g.Warrants s t a := by
  have ends {i : Item} (hi : i ∈ ((g.ending s t).foldl g.addReduction {}).items) :
      g.Warrants s t (.reduce i.production) :=
    ⟨i, (mem_items_of_reductions hi).1, rfl, (mem_items_of_reductions hi).2⟩
  have reduces (h : a ∈ (((g.ending s t).foldl g.addReduction {}).items.map
      fun i => Action.reduce i.production)) : g.Warrants s t a := by
    obtain ⟨i, hi, rfl⟩ := List.mem_map.1 h
    exact ends hi
  unfold actions at h
  dsimp only at h
  split at h
  · rename_i any
    obtain ⟨i, hi, isWhole⟩ := List.any_eq_true.1 any
    obtain rfl := List.mem_singleton.1 h
    exact ⟨i, (mem_items_of_reductions hi).1, by simpa using isWhole, (mem_items_of_reductions hi).2⟩
  · split at h
    · exact reduces h
    · rename_i target found
      have shifts : g.Warrants s t (.shift target) := by
        split at found
        · cases found
        · exact found
      split at h
      · obtain rfl := List.mem_singleton.1 h
        exact shifts
      · split at h
        · obtain rfl := List.mem_singleton.1 h
          exact shifts
        · exact reduces h
        · rcases List.mem_append.1 h with h | h
          · exact reduces h
          · obtain rfl := List.mem_singleton.1 h
            exact shifts

end Actions

end Tables

end PugComponents.Script

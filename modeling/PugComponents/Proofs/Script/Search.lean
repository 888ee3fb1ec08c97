import PugComponents.Script.Search
import Mathlib.Data.List.TakeWhile

/-! Searching a text that is put together from two parts. If no occurrence that starts in the first part
reaches into the second, the second part is searched as if it stood alone, but for the character before it. -/

namespace PugComponents.Script

variable {α β : Type}

section Readers

variable {cs left : List Char}

theorem bind_eq_some {r : Reader α} {f : α → Reader β} {b : β} :
    (r >>= f) cs = some (b, left) ↔ ∃ a rest, r cs = some (a, rest) ∧ f a rest = some (b, left) := by
  show (r cs).bind (fun found => f found.1 found.2) = some (b, left) ↔ _
  rw [Option.bind_eq_some_iff]
  constructor
  · rintro ⟨⟨a, rest⟩, first, next⟩
    exact ⟨a, rest, first, next⟩
  · rintro ⟨a, rest, first, next⟩
    exact ⟨(a, rest), first, next⟩

theorem pure_eq_some {a b : α} : (pure a : Reader α) cs = some (b, left) ↔ a = b ∧ cs = left := by
  show some (a, cs) = some (b, left) ↔ _
  simp

theorem guard_eq_some {p : Prop} [Decidable p] {u : Unit} :
    (guard p : Reader Unit) cs = some (u, left) ↔ p ∧ cs = left := by
  show (if p then pure () else failure : Reader Unit) cs = some (u, left) ↔ _
  by_cases h : p
  · rw [if_pos h]
    simp [h, pure_eq_some]
  · rw [if_neg h]
    simp only [h, false_and, iff_false]
    rintro ⟨⟩

theorem takeOne_eq_some {p : Char → Bool} {c : Char} :
    takeOne p cs = some (c, left) ↔ cs = c :: left ∧ p c = true := by
  cases cs with
  | nil => simp [takeOne]
  | cons d ds =>
    simp only [takeOne, List.cons.injEq]
    split
    · rename_i passes
      simp only [Option.some.injEq, Prod.mk.injEq]
      constructor
      · rintro ⟨rfl, rfl⟩
        exact ⟨⟨rfl, rfl⟩, passes⟩
      · exact fun h => h.1
    · rename_i fails
      constructor
      · rintro ⟨⟩
      · rintro ⟨⟨rfl, rfl⟩, passes⟩
        exact absurd passes fails

theorem takeAll_eq_some {p : Char → Bool} {taken : List Char} :
    takeAll p cs = some (taken, left) ↔
      cs = taken ++ left ∧ (∀ c ∈ taken, p c = true) ∧ ∀ c ∈ left.head?, p c = false := by
  simp only [takeAll, Option.some.injEq, Prod.mk.injEq]
  constructor
  · rintro ⟨rfl, rfl⟩
    refine ⟨List.takeWhile_append_dropWhile.symm, fun c hc => List.mem_takeWhile_imp hc, fun c hc => ?_⟩
    have stops := List.head?_dropWhile_not p cs
    rw [Option.mem_def.1 hc] at stops
    exact stops
  · rintro ⟨rfl, passes, stops⟩
    rw [List.takeWhile_append_of_pos passes, List.dropWhile_append_of_pos passes]
    cases left with
    | nil => simp
    | cons c left =>
      have stop : p c = false := stops c rfl
      simp [stop]

theorem dropStart?_eq_some {start : List Char} :
    Text.dropStart? start cs = some left ↔ cs = start ++ left := by
  induction start generalizing cs with
  | nil => simp [Text.dropStart?]
  | cons p ps ih =>
    cases cs with
    | nil => simp [Text.dropStart?]
    | cons c cs =>
      simp only [Text.dropStart?, List.cons_append, List.cons.injEq]
      split
      · rename_i same
        simp [same, ih]
      · rename_i other
        simp [Ne.symm other]

theorem exactly_eq_some {s : String} {u : Unit} :
    exactly s cs = some (u, left) ↔ cs = s.toList ++ left := by
  simp [exactly, dropStart?_eq_some]

theorem notNext_eq_some {p : Char → Bool} {u : Unit} :
    notNext p cs = some (u, left) ↔ cs = left ∧ ∀ c ∈ cs.head?, p c = false := by
  cases cs with
  | nil => simp [notNext]
  | cons c cs =>
    by_cases h : p c = true <;> simp [notNext, h]

end Readers

/-- The character in front of what stands behind a text, if a character stands in front of the text. -/
def lastOf (before : Option Char) (cs : List Char) : Option Char := cs.getLast?.or before

@[simp] theorem lastOf_none {cs : List Char} : lastOf none cs = cs.getLast? := Option.or_none

theorem lastOf_cons {before : Option Char} {c : Char} {cs : List Char} :
    lastOf before (c :: cs) = lastOf (some c) cs := by
  cases h : cs.getLast? <;> simp [lastOf, List.getLast?_cons, h]

theorem lastOf_append {before : Option Char} {cs ds : List Char} :
    lastOf before (cs ++ ds) = lastOf (lastOf before cs) ds := by
  induction cs generalizing before with
  | nil => rfl
  | cons c cs ih => rw [List.cons_append, lastOf_cons, lastOf_cons, ih]

theorem findAllFrom_passed (p : Finder α) (before : Option Char) (cs rest : List Char) :
    findAllFrom p before cs.length (cs ++ rest) = findAllFrom p (lastOf before cs) 0 rest := by
  induction cs generalizing before with
  | nil => rfl
  | cons c cs ih => rw [List.cons_append, List.length_cons, findAllFrom, ih, lastOf_cons]

theorem replaceAllFrom_passed (p : Finder (List Char)) (before : Option Char) (cs rest : List Char) :
    replaceAllFrom p before cs.length (cs ++ rest) = replaceAllFrom p (lastOf before cs) 0 rest := by
  induction cs generalizing before with
  | nil => rfl
  | cons c cs ih => rw [List.cons_append, List.length_cons, replaceAllFrom, ih, lastOf_cons]

/-- No occurrence that starts in a text reaches into what follows. -/
def StaysWithin (p : Finder α) (cs rest : List Char) : Prop :=
  ∀ before c ds, c :: ds <:+ cs → ∀ a left, p before (c :: (ds ++ rest)) = some (a, left) →
    ∃ mid ds', ds = mid ++ ds' ∧ left = ds' ++ rest

theorem StaysWithin.of_suffix {p : Finder α} {cs ds rest : List Char} (h : StaysWithin p cs rest)
    (tail : ds <:+ cs) : StaysWithin p ds rest :=
  fun before c es start => h before c es (start.trans tail)

theorem exists_findAllFrom_append {p : Finder α} {rest : List Char} (before : Option Char)
    (cs : List Char) (within : StaysWithin p cs rest) :
    ∃ found, findAllFrom p before 0 (cs ++ rest) = found ++ findAllFrom p (lastOf before cs) 0 rest := by
  match cs with
  | [] => exact ⟨[], rfl⟩
  | c :: ds =>
    rw [List.cons_append, findAllFrom]
    split
    · rename_i a left matched
      obtain ⟨mid, ds', rfl, rfl⟩ := within before c ds (List.suffix_refl _) a left matched
      have passed : (mid ++ ds' ++ rest).length - (ds' ++ rest).length = mid.length := by
        simp only [List.length_append]; omega
      obtain ⟨found, later⟩ := exists_findAllFrom_append (lastOf (some c) mid) ds'
        (within.of_suffix ⟨c :: mid, rfl⟩)
      refine ⟨a :: found, ?_⟩
      rw [passed, List.append_assoc, findAllFrom_passed, later, lastOf_cons, lastOf_append]
      rfl
    · obtain ⟨found, later⟩ := exists_findAllFrom_append (some c) ds
        (within.of_suffix (List.suffix_cons c ds))
      exact ⟨found, by rw [later, lastOf_cons]⟩
termination_by cs.length

def KeepsEnds (p : Finder (List Char)) : Prop :=
  ∀ before c ds new left, p before (c :: ds) = some (new, left) →
    new.head? = some c ∧ ∃ mid, ds = mid ++ left ∧ new.getLast? = (c :: mid).getLast?

theorem head?_replaceAllFrom {p : Finder (List Char)} (keeps : KeepsEnds p) (before : Option Char)
    (cs : List Char) : (replaceAllFrom p before 0 cs).head? = cs.head? := by
  cases cs with
  | nil => rfl
  | cons c ds =>
    rw [replaceAllFrom]
    split
    · rename_i new left matched
      have start := (keeps before c ds new left matched).1
      simp [start]
    · rfl

theorem exists_replaceAllFrom_append {p : Finder (List Char)} (keeps : KeepsEnds p) {rest : List Char}
    (before : Option Char) (cs : List Char) (within : StaysWithin p cs rest) :
    ∃ new, replaceAllFrom p before 0 (cs ++ rest) = new ++ replaceAllFrom p (lastOf before cs) 0 rest ∧
      new.getLast? = cs.getLast? := by
  match cs with
  | [] => exact ⟨[], rfl, rfl⟩
  | c :: ds =>
    rw [List.cons_append, replaceAllFrom]
    split
    · rename_i first left matched
      obtain ⟨mid, ds', rfl, rfl⟩ := within before c ds (List.suffix_refl _) first left matched
      obtain ⟨-, mid', split, last⟩ := keeps before c _ first _ matched
      obtain rfl : mid = mid' := List.append_cancel_right (by rw [← List.append_assoc, split])
      have passed : (mid ++ ds' ++ rest).length - (ds' ++ rest).length = mid.length := by
        simp only [List.length_append]; omega
      obtain ⟨new, later, end'⟩ := exists_replaceAllFrom_append keeps (lastOf (some c) mid) ds'
        (within.of_suffix ⟨c :: mid, rfl⟩)
      refine ⟨first ++ new, ?_, ?_⟩
      · rw [passed, List.append_assoc mid, replaceAllFrom_passed, later, lastOf_cons, lastOf_append,
          List.append_assoc]
      · rw [← List.cons_append, List.getLast?_append, List.getLast?_append, end', last]
    · obtain ⟨new, later, end'⟩ := exists_replaceAllFrom_append keeps (some c) ds
        (within.of_suffix (List.suffix_cons c ds))
      refine ⟨c :: new, by rw [later, lastOf_cons, List.cons_append], ?_⟩
      rw [List.getLast?_cons, List.getLast?_cons, end']
termination_by cs.length

theorem replaceAllFrom_append_of_none {p : Finder (List Char)} {cs rest : List Char}
    (none : ∀ c ∈ cs, ∀ before ds, p before (c :: ds) = none) (before : Option Char) :
    replaceAllFrom p before 0 (cs ++ rest) = cs ++ replaceAllFrom p (lastOf before cs) 0 rest := by
  induction cs generalizing before with
  | nil => rfl
  | cons c cs ih =>
    rw [List.forall_mem_cons] at none
    rw [List.cons_append, replaceAllFrom, none.1, lastOf_cons, ih none.2]
    rfl

end PugComponents.Script

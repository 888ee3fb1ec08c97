import PugComponents.Proofs.Outcome
import Mathlib.Data.List.Forall2

/-! What a computation yields, apart from what it reports when it fails. Computations of the same value
succeed for the same inputs and give the same results; their failures and their records may differ.
Since a value does not show which step has failed first, steps over a list can be taken piece by
piece: `gather` does so, and two gatherings one after the other are one. -/

namespace PugComponents

variable {α β γ ρ : Type}

namespace Outcome

@[simp] theorem toOption_ok (a : α) : (.ok a : Except Failure α).toOption = some a := rfl

@[simp] theorem toOption_error (e : Failure) : (.error e : Except Failure α).toOption = none := rfl

@[simp] theorem toOption_pure (a : α) : (pure a : Except Failure α).toOption = some a := rfl

theorem toOption_bind (x : Except Failure α) (f : α → Except Failure β) :
    (x >>= f).toOption = x.toOption.bind fun a => (f a).toOption := by
  cases x <;> rfl

theorem toOption_eq_some_iff {x : Except Failure α} {a : α} : x.toOption = some a ↔ x = .ok a := by
  cases x <;> simp

end Outcome

namespace Run

def value? (x : Run ρ α) : Option α := x.result.toOption

@[simp] theorem value?_pure (a : α) : (pure a : Run ρ α).value? = some a := rfl

@[simp] theorem value?_fail (e : Failure) : (fail e : Run ρ α).value? = none := rfl

@[simp] theorem value?_note (record : ρ) : (note record : Run ρ Unit).value? = some () := rfl

@[simp] theorem value?_lift (x : Except Failure α) : (liftM x : Run ρ α).value? = x.toOption := rfl

theorem value?_bind (x : Run ρ α) (f : α → Run ρ β) :
    (x >>= f).value? = x.value?.bind fun a => (f a).value? := by
  rw [value?, result_bind]
  cases found : x.result <;> simp [Except.bind, value?, found]

theorem value?_eq_some_iff {x : Run ρ α} {a : α} : x.value? = some a ↔ x.result = .ok a :=
  Outcome.toOption_eq_some_iff

end Run

/-- Whatever the first computation yields, the second yields something related to it; in the strict
sense the first one succeeds whenever the second does. -/
structure Follows (strict : Prop) (R : α → β → Prop) (o : Option α) (o' : Option β) : Prop where
  ahead : ∀ a, o = some a → ∃ b, o' = some b ∧ R a b
  back : strict → ∀ b, o' = some b → ∃ a, o = some a ∧ R a b

namespace Follows

variable {δ : Type} {strict : Prop} {R : α → β → Prop} {S : γ → δ → Prop} {o : Option α} {o' : Option β}

theorem none : Follows strict R none none := ⟨by simp, by simp⟩

theorem some {a : α} {b : β} (related : R a b) : Follows strict R (some a) (some b) := by
  refine ⟨?_, fun _ => ?_⟩
  · rintro _ ⟨rfl⟩
    exact ⟨b, rfl, related⟩
  · rintro _ ⟨rfl⟩
    exact ⟨a, rfl, related⟩

theorem of_rel (h : Option.Rel R o o') : Follows strict R o o' := by
  cases h with
  | none => exact none
  | some related => exact some related

theorem refl (o : Option α) : Follows strict Eq o o := by
  cases o with
  | none => exact none
  | some a => exact some rfl

theorem yielded (h : Follows strict R o o') :
    Follows strict (fun a b => o = .some a ∧ o' = .some b ∧ R a b) o o' := by
  constructor
  · intro a ha
    obtain ⟨b, hb, related⟩ := h.ahead a ha
    exact ⟨b, hb, ha, hb, related⟩
  · intro isStrict b hb
    obtain ⟨a, ha, related⟩ := h.back isStrict b hb
    exact ⟨a, ha, ha, hb, related⟩

theorem imp {S : α → β → Prop} (h : Follows strict R o o') (weaker : ∀ a b, R a b → S a b) :
    Follows strict S o o' := by
  constructor
  · intro a ha
    obtain ⟨b, hb, related⟩ := h.ahead a ha
    exact ⟨b, hb, weaker a b related⟩
  · intro isStrict b hb
    obtain ⟨a, ha, related⟩ := h.back isStrict b hb
    exact ⟨a, ha, weaker a b related⟩

theorem bind {f : α → Option γ} {g : β → Option δ} (h : Follows strict R o o')
    (each : ∀ a b, R a b → Follows strict S (f a) (g b)) :
    Follows strict S (o.bind f) (o'.bind g) := by
  constructor
  · intro c hc
    obtain ⟨a, rfl, hc⟩ := Option.bind_eq_some_iff.1 hc
    obtain ⟨b, rfl, related⟩ := h.ahead a rfl
    exact (each a b related).ahead c hc
  · intro isStrict d hd
    obtain ⟨b, rfl, hd⟩ := Option.bind_eq_some_iff.1 hd
    obtain ⟨a, rfl, related⟩ := h.back isStrict b rfl
    exact (each a b related).back isStrict d hd

theorem map {f : α → γ} {g : β → δ} (h : Follows strict R o o')
    (each : ∀ a b, R a b → S (f a) (g b)) : Follows strict S (o.map f) (o'.map g) := by
  rw [Option.map_eq_bind, Option.map_eq_bind]
  exact h.bind fun a b related => some (each a b related)

theorem mapM {f : α → Option γ} {g : β → Option δ} {as : List α} {bs : List β}
    (h : List.Forall₂ (fun a b => Follows strict S (f a) (g b)) as bs) :
    Follows strict (List.Forall₂ S) (as.mapM f) (bs.mapM g) := by
  induction h with
  | nil => exact some .nil
  | cons first _ ih =>
    rw [List.mapM_cons, List.mapM_cons]
    exact first.bind fun c d here => ih.bind fun cs ds there => some (.cons here there)

end Follows

theorem mapM_eq_some_iff {f : α → Option β} {as : List α} {bs : List β} :
    as.mapM f = some bs ↔ List.Forall₂ (fun a b => f a = some b) as bs := by
  induction as generalizing bs with
  | nil => simp [eq_comm]
  | cons a as ih =>
    simp only [List.mapM_cons, Option.bind_eq_bind, Option.bind_eq_some_iff, Option.pure_def,
      Option.some.injEq, List.forall₂_cons_left_iff]
    constructor
    · rintro ⟨b, here, bs, there, rfl⟩
      exact ⟨b, bs, here, ih.1 there, rfl⟩
    · rintro ⟨b, bs, here, there, rfl⟩
      exact ⟨b, here, bs, ih.2 there, rfl⟩

/-- The pieces that the members of a list give, one behind the other, if all of them give one. -/
def gather (f : α → Option (List β)) : List α → Option (List β)
  | [] => some []
  | a :: as => (f a).bind fun first => (gather f as).map fun others => first ++ others

section Gather

variable {f : α → Option (List β)} {g : β → Option (List γ)}

@[simp] theorem gather_nil : gather f [] = some [] := rfl

theorem gather_cons (a : α) (as : List α) :
    gather f (a :: as) =
      (f a).bind fun first => (gather f as).bind fun others => some (first ++ others) := by
  rw [gather]
  cases f a <;> cases gather f as <;> rfl

theorem gather_singleton (a : α) : gather f [a] = f a := by
  cases found : f a <;> simp [gather, found]

theorem gather_congr {f f' : α → Option (List β)} {as : List α} (each : ∀ a ∈ as, f a = f' a) :
    gather f as = gather f' as := by
  induction as with
  | nil => rfl
  | cons a as ih =>
    rw [List.forall_mem_cons] at each
    rw [gather, gather, each.1, ih each.2]

theorem gather_eq_self {f : α → Option (List α)} {as : List α}
    (each : ∀ a ∈ as, f a = some [a]) : gather f as = some as := by
  induction as with
  | nil => rfl
  | cons a as ih =>
    rw [List.forall_mem_cons] at each
    simp [gather, each.1, ih each.2]

theorem gather_append (as bs : List α) :
    gather f (as ++ bs) =
      (gather f as).bind fun first => (gather f bs).map fun others => first ++ others := by
  induction as with
  | nil => simp [gather]
  | cons a as ih =>
    rw [List.cons_append, gather, gather, ih]
    cases f a <;> cases gather f as <;> cases gather f bs <;> simp

theorem gather_append_eq_some_iff {as bs : List α} {out : List β} :
    gather f (as ++ bs) = some out ↔
      ∃ first others, gather f as = some first ∧ gather f bs = some others ∧ first ++ others = out := by
  simp only [gather_append, Option.bind_eq_some_iff, Option.map_eq_some_iff]
  constructor
  · rintro ⟨first, here, others, there, eq⟩
    exact ⟨first, others, here, there, eq⟩
  · rintro ⟨first, others, here, there, eq⟩
    exact ⟨first, here, others, there, eq⟩

theorem gather_gather (as : List α) :
    (gather f as).bind (gather g) = gather (fun a => (f a).bind (gather g)) as := by
  induction as with
  | nil => rfl
  | cons a as ih =>
    rw [gather, gather, ← ih]
    cases f a with
    | none => rfl
    | some first =>
      cases gather f as with
      | none => cases found : gather g first <;> simp [found]
      | some others => simp [gather_append]

/-- Members that give nothing but the empty piece have to give it, and do not show otherwise. -/
theorem gather_eq_some_iff_of_silent {silent : α → Bool}
    (empty : ∀ a, silent a = true → ∀ part, f a = some part → part = []) (as : List α)
    {out : List β} :
    gather f as = some out ↔
      (∀ a ∈ as, silent a = true → f a = some []) ∧
        gather f (as.filter fun a => !silent a) = some out := by
  induction as generalizing out with
  | nil => simp
  | cons a as ih =>
    rw [gather, List.forall_mem_cons]
    cases isSilent : silent a with
    | true =>
      rw [List.filter_cons_of_neg (by simp [isSilent])]
      cases found : f a with
      | none => simp
      | some part => simp [empty a isSilent part found, ih]
    | false =>
      rw [List.filter_cons_of_pos (by simp [isSilent]), gather]
      cases f a with
      | none => simp
      | some part =>
        simp only [Option.bind_some, Option.map_eq_some_iff, ih]
        constructor
        · rintro ⟨others, ⟨silents, rest⟩, rfl⟩
          exact ⟨⟨by simp, silents⟩, others, rest, rfl⟩
        · rintro ⟨⟨-, silents⟩, others, rest, rfl⟩
          exact ⟨others, ⟨silents, rest⟩, rfl⟩

theorem gather_eq_of_perm {silent : α → Bool}
    (empty : ∀ a, silent a = true → ∀ part, f a = some part → part = []) {as bs : List α}
    (perm : as.Perm bs)
    (order : (as.filter fun a => !silent a) = bs.filter fun a => !silent a) :
    gather f as = gather f bs := by
  ext out
  rw [gather_eq_some_iff_of_silent empty as, gather_eq_some_iff_of_silent empty bs, order]
  simp only [perm.mem_iff]

end Gather

end PugComponents

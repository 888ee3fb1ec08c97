import PugComponents.Failure

/-! What the outcome of chained steps says about each of them. A chain succeeds exactly if all of its
steps do, and it fails exactly with the failure of the first step that does. -/

namespace PugComponents

variable {α β ρ : Type}

namespace Outcome

theorem bind_eq_ok {x : Except Failure α} {f : α → Except Failure β} {b : β} :
    x >>= f = .ok b ↔ ∃ a, x = .ok a ∧ f a = .ok b := by
  cases x <;> simp [bind, Except.bind]

theorem bind_eq_error {x : Except Failure α} {f : α → Except Failure β} {e : Failure} :
    x >>= f = .error e ↔ x = .error e ∨ ∃ a, x = .ok a ∧ f a = .error e := by
  cases x <;> simp [bind, Except.bind]

@[simp] theorem pure_eq_ok {a b : α} : (pure a : Except Failure α) = .ok b ↔ a = b := by
  simp [pure, Except.pure]

theorem bind_pure_eq_error {x : Except Failure α} {f : α → β} {e : Failure} :
    (x >>= fun a => pure (f a)) = .error e ↔ x = .error e := by
  cases x <;> simp [bind, Except.bind, pure, Except.pure]

theorem mapError_eq_ok {x : Except Failure α} {f : Failure → Failure} {a : α} :
    x.mapError f = .ok a ↔ x = .ok a := by
  cases x with
  | ok b => exact Iff.rfl
  | error e => exact iff_of_false nofun nofun

theorem mapError_eq_error {x : Except Failure α} {f : Failure → Failure} {e : Failure} :
    x.mapError f = .error e ↔ ∃ e', x = .error e' ∧ f e' = e := by
  cases x with
  | ok b => exact iff_of_false nofun fun ⟨_, same, _⟩ => nomatch same
  | error e' =>
    constructor
    · intro h
      exact ⟨e', rfl, Except.error.inj h⟩
    · rintro ⟨_, ⟨⟩, rfl⟩
      rfl

theorem exists_ok_of_isOk {x : Except Failure α} (h : x.isOk = true) : ∃ a, x = .ok a := by
  cases x with
  | error e => simp [Except.isOk, Except.toBool] at h
  | ok a => exact ⟨a, rfl⟩

def FailsOnly (P : Failure → Prop) (x : Except Failure α) : Prop := ∀ e, x = .error e → P e

variable {P : Failure → Prop}

theorem failsOnly_ok (a : α) : FailsOnly P (.ok a : Except Failure α) := by
  intro e h
  cases h

theorem failsOnly_error {e : Failure} : FailsOnly P (.error e : Except Failure α) ↔ P e := by
  constructor
  · intro h
    exact h e rfl
  · intro h e' he
    cases he
    exact h

theorem FailsOnly.imp {Q : Failure → Prop} {x : Except Failure α} (h : FailsOnly P x)
    (imp : ∀ e, P e → Q e) : FailsOnly Q x :=
  fun e failed => imp e (h e failed)

theorem FailsOnly.bind_of_ok {x : Except Failure α} {f : α → Except Failure β} (first : FailsOnly P x)
    (next : ∀ a, x = .ok a → FailsOnly P (f a)) : FailsOnly P (x >>= f) := by
  intro e h
  rcases bind_eq_error.1 h with h | ⟨a, ok, h⟩
  · exact first e h
  · exact next a ok e h

theorem FailsOnly.bind {x : Except Failure α} {f : α → Except Failure β} (first : FailsOnly P x)
    (next : ∀ a, FailsOnly P (f a)) : FailsOnly P (x >>= f) :=
  first.bind_of_ok fun a _ => next a

theorem failsOnly_mapM_of_mem {f : α → Except Failure β} {as : List α}
    (each : ∀ a ∈ as, FailsOnly P (f a)) : FailsOnly P (as.mapM f) := by
  induction as with
  | nil => exact failsOnly_ok []
  | cons a as ih =>
    rw [List.forall_mem_cons] at each
    rw [List.mapM_cons]
    exact each.1.bind fun b => (ih each.2).bind fun bs => failsOnly_ok _

theorem failsOnly_mapM {f : α → Except Failure β} (each : ∀ a, FailsOnly P (f a)) (as : List α) :
    FailsOnly P (as.mapM f) :=
  failsOnly_mapM_of_mem fun a _ => each a

theorem exists_of_mem_mapM {f : α → Except Failure β} {as : List α} {bs : List β}
    (h : as.mapM f = .ok bs) {b : β} (hb : b ∈ bs) : ∃ a ∈ as, f a = .ok b := by
  induction as generalizing bs with
  | nil =>
    simp only [List.mapM_nil, pure_eq_ok] at h
    simp [← h] at hb
  | cons a as ih =>
    simp only [List.mapM_cons, bind_eq_ok, pure_eq_ok] at h
    obtain ⟨first, run, others, rest, rfl⟩ := h
    rcases List.mem_cons.1 hb with rfl | hb
    · exact ⟨a, by simp, run⟩
    · obtain ⟨a', ha, run⟩ := ih rest hb
      exact ⟨a', List.mem_cons_of_mem a ha, run⟩

theorem exists_mem_of_mapM {f : α → Except Failure β} {as : List α} {bs : List β}
    (h : as.mapM f = .ok bs) {a : α} (ha : a ∈ as) : ∃ b ∈ bs, f a = .ok b := by
  induction as generalizing bs with
  | nil => cases ha
  | cons a' as ih =>
    simp only [List.mapM_cons, bind_eq_ok, pure_eq_ok] at h
    obtain ⟨first, run, others, rest, rfl⟩ := h
    rcases List.mem_cons.1 ha with rfl | ha
    · exact ⟨first, by simp, run⟩
    · obtain ⟨b, hb, run⟩ := ih rest ha
      exact ⟨b, List.mem_cons_of_mem first hb, run⟩

abbrev Sure (x : Except Failure α) : Prop := FailsOnly (fun _ => False) x

theorem Sure.failsOnly {x : Except Failure α} (h : Sure x) : FailsOnly P x := h.imp fun _ => False.elim

theorem Sure.exists_ok {x : Except Failure α} (h : Sure x) : ∃ a, x = .ok a := by
  cases x with
  | error e => exact (h e rfl).elim
  | ok a => exact ⟨a, rfl⟩

theorem sure_ok (a : α) : Sure (.ok a : Except Failure α) := failsOnly_ok a

/-- Two steps yield related values, or fail with the same failure. -/
inductive Alike (R : α → α → Prop) : Except Failure α → Except Failure α → Prop
  | ok {a b : α} (related : R a b) : Alike R (.ok a) (.ok b)
  | error (e : Failure) : Alike R (.error e) (.error e)

namespace Alike

variable {R : α → α → Prop} {S : β → β → Prop} {x y : Except Failure α}

theorem refl (related : ∀ a, R a a) (x : Except Failure α) : Alike R x x := by
  cases x with
  | ok a => exact ok (related a)
  | error e => exact error e

theorem bind {f g : α → Except Failure β} (first : Alike R x y) (next : ∀ a b, R a b → Alike S (f a) (g b)) :
    Alike S (x >>= f) (y >>= g) := by
  cases first with
  | ok related => exact next _ _ related
  | error e => exact error e

end Alike

end Outcome

namespace Run

protected theorem pure_bind (a : α) (f : α → Run ρ β) : pure a >>= f = f a := by
  show Run.bind (Run.pure a) f = f a
  simp [Run.bind, Run.pure]

protected theorem bind_assoc {γ : Type} (x : Run ρ α) (f : α → Run ρ β) (g : β → Run ρ γ) :
    x >>= f >>= g = x >>= fun a => f a >>= g := by
  show Run.bind (Run.bind x f) g = Run.bind x fun a => Run.bind (f a) g
  cases first : x.result with
  | error e => simp [Run.bind, first]
  | ok a => cases second : (f a).result <;> simp [Run.bind, first, second]

theorem bind_congr_of_ok {x : Run ρ α} {f g : α → Run ρ β} (h : ∀ a, x.result = .ok a → f a = g a) :
    x >>= f = x >>= g := by
  show Run.bind x f = Run.bind x g
  unfold Run.bind
  split
  · rfl
  · rw [h _ ‹_›]

theorem result_bind_eq_ok {x : Run ρ α} {f : α → Run ρ β} {b : β} :
    (x >>= f).result = .ok b ↔ ∃ a, x.result = .ok a ∧ (f a).result = .ok b := by
  rw [result_bind]
  cases x.result <;> simp [Except.bind]

theorem result_bind_eq_error {x : Run ρ α} {f : α → Run ρ β} {e : Failure} :
    (x >>= f).result = .error e ↔
      x.result = .error e ∨ ∃ a, x.result = .ok a ∧ (f a).result = .error e := by
  rw [result_bind]
  cases x.result <;> simp [Except.bind]

theorem result_bind_pure_eq_error {x : Run ρ α} {f : α → β} {e : Failure} :
    (x >>= fun a => pure (f a)).result = .error e ↔ x.result = .error e := by
  simp [result_bind_eq_error]

theorem failsOnly_bind {P : Failure → Prop} {x : Run ρ α} {f : α → Run ρ β}
    (first : Outcome.FailsOnly P x.result)
    (next : ∀ a, x.result = .ok a → Outcome.FailsOnly P (f a).result) :
    Outcome.FailsOnly P (x >>= f).result := by
  intro e h
  rcases result_bind_eq_error.1 h with h | ⟨a, ok, h⟩
  · exact first e h
  · exact next a ok e h

@[simp] theorem result_lift (x : Except Failure α) : (liftM x : Run ρ α).result = x := rfl

@[simp] theorem result_note (record : ρ) : (note record : Run ρ Unit).result = .ok () := rfl

end Run

end PugComponents

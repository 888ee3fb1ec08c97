import PugComponents.Traversal.Rule

/-! Visits whose hooks have a memory, and what the hooks decide in the course of a visit. To watch a
visitor is to note, beside its own memory, every decision with the node and the parent it was made
for. `Course` follows a computation and the watched one side by side: they go the same way. -/

namespace PugComponents

structure Judgement where
  phase : Phase
  node : Node
  parent : Option Node
  verdict : Verdict

/-- The root was dropped: only the root has no parent. -/
def RootDropped (made : List Judgement) : Prop :=
  ∃ j ∈ made, j.parent = none ∧ j.verdict = .remove

theorem rootDropped_append {made more : List Judgement} :
    RootDropped (made ++ more) ↔ RootDropped made ∨ RootDropped more := by
  simp only [RootDropped, List.mem_append, or_and_right, exists_or]

@[simp] theorem not_rootDropped_nil : ¬ RootDropped [] := by simp [RootDropped]

@[simp] theorem rootDropped_singleton {j : Judgement} :
    RootDropped [j] ↔ j.parent = none ∧ j.verdict = .remove := by simp [RootDropped]

/-- A computation that can fail, with a memory that is kept when it does. -/
abbrev Remembering (σ α : Type) := EStateM Failure σ α

variable {σ α β : Type}

def Remembering.outcome (x : Remembering σ α) (s : σ) : Except Failure α :=
  match x s with
  | .ok a _ => .ok a
  | .error e _ => .error e

theorem Remembering.bind_ok {x : Remembering σ α} {f : α → Remembering σ β} {s s' : σ} {a : α}
    (run : x s = .ok a s') : (x >>= f) s = f a s' := by
  show EStateM.bind x f s = _
  rw [EStateM.bind, run]

theorem Remembering.bind_error {x : Remembering σ α} {f : α → Remembering σ β} {s s' : σ} {e : Failure}
    (run : x s = .error e s') : (x >>= f) s = .error e s' := by
  show EStateM.bind x f s = _
  rw [EStateM.bind, run]

def Hook.watched (phase : Phase) (hook : Hook (Remembering σ)) :
    Hook (Remembering (σ × List Judgement)) := fun n parent memory =>
  match hook n parent memory.1 with
  | .ok verdict s => .ok verdict (s, memory.2 ++ [⟨phase, n, parent, verdict⟩])
  | .error e s => .error e (s, memory.2)

namespace Visitor

def watched (v : Visitor (Remembering σ)) : Visitor (Remembering (σ × List Judgement)) := fun kind =>
  { enter := (v kind).enter.map (Hook.watched .enter)
    leave := (v kind).leave.map (Hook.watched .leave) }

def judgements (v : Visitor (Remembering σ)) (depth : Nat) (root : Node) (s : σ) : List Judgement :=
  match v.watched.traverseWithin depth root (s, []) with
  | .ok _ memory => memory.2
  | .error _ memory => memory.2

end Visitor

def tooDeep : Failure := .fault .tooDeep

/-- A computation and the watched one go the same way: both come to a value that, with the decisions made
until then, satisfies `P`, or both run into the bound. -/
def Course (P : α → List Judgement → Prop) (x : Remembering σ α)
    (y : Remembering (σ × List Judgement) α) : Prop :=
  ∀ s made,
    (∃ a s' more, x s = .ok a s' ∧ y (s, made) = .ok a (s', made ++ more) ∧ P a more) ∨
      ∃ s' more, x s = .error tooDeep s' ∧ y (s, made) = .error tooDeep (s', made ++ more)

namespace Course

variable {P : α → List Judgement → Prop} {Q : β → List Judgement → Prop} {x : Remembering σ α}
  {y : Remembering (σ × List Judgement) α}

protected theorem pure {a : α} (holds : P a []) : Course P (pure a : Remembering σ α) (pure a) :=
  fun s made => .inl ⟨a, s, [], rfl, by rw [List.append_nil]; rfl, holds⟩

theorem bound : Course P (throw tooDeep : Remembering σ α) (throw tooDeep) :=
  fun s made => .inr ⟨s, [], rfl, by rw [List.append_nil]; rfl⟩

protected theorem bind {f : α → Remembering σ β} {g : α → Remembering (σ × List Judgement) β}
    (first : Course P x y)
    (next : ∀ a made, P a made → Course (fun b more => Q b (made ++ more)) (f a) (g a)) :
    Course Q (x >>= f) (y >>= g) := by
  intro s made
  rcases first s made with ⟨a, s', more, run, watch, holds⟩ | ⟨s', more, run, watch⟩
  · rw [Remembering.bind_ok run, Remembering.bind_ok watch]
    rcases next a more holds s' (made ++ more) with ⟨b, t, others, run, watch, holds⟩ |
      ⟨t, others, run, watch⟩
    · exact .inl ⟨b, t, more ++ others, run, by rw [watch, List.append_assoc], holds⟩
    · exact .inr ⟨t, more ++ others, run, by rw [watch, List.append_assoc]⟩
  · exact .inr ⟨s', more, Remembering.bind_error run, Remembering.bind_error watch⟩

theorem imp {P' : α → List Judgement → Prop} (h : Course P x y)
    (weaker : ∀ a made, P a made → P' a made) : Course P' x y := by
  intro s made
  rcases h s made with ⟨a, s', more, run, watch, holds⟩ | deep
  · exact .inl ⟨a, s', more, run, watch, weaker a more holds⟩
  · exact .inr deep

end Course

/-- The second computation goes the way of the first, which may however run into the bound. -/
def Deepens (x y : Remembering σ α) : Prop := ∀ s, y s = x s ∨ ∃ s', x s = .error tooDeep s'

namespace Deepens

protected theorem refl (x : Remembering σ α) : Deepens x x := fun _ => .inl rfl

protected theorem bind {x y : Remembering σ α} {f g : α → Remembering σ β} (first : Deepens x y)
    (next : ∀ a, Deepens (f a) (g a)) : Deepens (x >>= f) (y >>= g) := by
  intro s
  rcases first s with same | ⟨s', deep⟩
  · cases run : x s with
    | ok a s' =>
      rw [Remembering.bind_ok run, Remembering.bind_ok (same.trans run)]
      exact next a s'
    | error e s' => exact .inl ((Remembering.bind_error (same.trans run)).trans
        (Remembering.bind_error run).symm)
  · exact .inr ⟨s', Remembering.bind_error deep⟩

protected theorem trans {x y z : Remembering σ α} (first : Deepens x y) (next : Deepens y z) :
    Deepens x z := by
  intro s
  rcases first s with same | deep
  · rw [← same]
    exact next s
  · exact .inr deep

end Deepens

end PugComponents

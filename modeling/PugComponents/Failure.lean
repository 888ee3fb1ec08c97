import PugComponents.Diagnostic

/-! Why an operation gave no result: a diagnostic about the template, a value of the wrong shape, or
options that cannot be used. A `Run` carries the records made on the way, which are kept also when
the operation fails. -/

namespace PugComponents

/-- A value that does not have the shape which an operation needs. -/
inductive Fault where
  /-- A field that a node cannot do without is absent. -/
  | missingField
  /-- A value that had to be a list, an object or a text is something else. -/
  | wrongKind
  /-- An entry is looked up that does not exist. -/
  | missingEntry
  /-- A node or value lacks the part that is read from it. -/
  | missingPart
  /-- The nesting exceeds the bound. -/
  | tooDeep
  /-- A text is not JSON. -/
  | notJson
  /-- An integer has more digits than are read or written. -/
  | tooManyDigits
  /-- An indent does not fit into a machine word. -/
  | indentTooWide
deriving DecidableEq

inductive Failure where
  | diagnostic (d : Diagnostic)
  | fault (f : Fault)
  /-- The scope mode has a value that names no mode. -/
  | invalidMode (value : Json)
  /-- Options are set that do not exist, in alphabetical order. -/
  | unknownOptions (names : List String)

def Failure.message? : Failure → Option String
  | .diagnostic d => some d.text
  | .fault _ => none
  | .invalidMode value =>
    some ("Invalid scopeIsolation " ++ value.literal ++ "; expected one of: error, warn, off")
  | .unknownOptions names => some ("Unknown expansion option(s): " ++ Text.join ", " names)

/-- A result, or the reason why there is none, with the records made until then. -/
structure Run (ρ : Type) (α : Type) where
  result : Except Failure α
  records : List ρ := []

namespace Run

variable {ρ α β : Type}

protected def pure (a : α) : Run ρ α := ⟨.ok a, []⟩

/-- The second step runs only after a success of the first; its records follow. -/
protected def bind (x : Run ρ α) (f : α → Run ρ β) : Run ρ β :=
  match x.result with
  | .error e => ⟨.error e, x.records⟩
  | .ok a => ⟨(f a).result, x.records ++ (f a).records⟩

instance : Monad (Run ρ) where
  pure := Run.pure
  bind := Run.bind

def fail (e : Failure) : Run ρ α := ⟨.error e, []⟩

def note (record : ρ) : Run ρ Unit := ⟨.ok (), [record]⟩

/-- A failure can be caught; the records made until then stay. -/
def orElse (x : Run ρ α) (handler : Failure → Run ρ α) : Run ρ α :=
  match x.result with
  | .error e => ⟨(handler e).result, x.records ++ (handler e).records⟩
  | .ok _ => x

instance : MonadExceptOf Failure (Run ρ) where
  throw := fail
  tryCatch := orElse

def ofExcept (x : Except Failure α) : Run ρ α := ⟨x, []⟩

instance : MonadLift (Except Failure) (Run ρ) := ⟨ofExcept⟩

@[simp] theorem result_pure (a : α) : (pure a : Run ρ α).result = .ok a := rfl

@[simp] theorem result_fail (e : Failure) : (fail e : Run ρ α).result = .error e := rfl

@[simp] theorem result_ofExcept (x : Except Failure α) : (ofExcept x : Run ρ α).result = x := rfl

theorem result_bind (x : Run ρ α) (f : α → Run ρ β) :
    (x >>= f).result = x.result.bind fun a => (f a).result := by
  show (Run.bind x f).result = _
  unfold Run.bind
  cases x.result <;> rfl

def each (f : α → Run ρ β) : List α → Run ρ (List β)
  | [] => pure []
  | a :: as => do
    let b ← f a
    let bs ← each f as
    pure (b :: bs)

end Run

end PugComponents

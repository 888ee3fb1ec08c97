import PugComponents.Definition

/-! The components of one compilation unit, in the order in which they were registered. No name occurs
twice. -/

namespace PugComponents

structure Registry where
  definitions : List Definition
  nodup : (definitions.map Definition.name).Nodup

namespace Registry

def empty : Registry := ⟨[], List.nodup_nil⟩

instance : Inhabited Registry := ⟨empty⟩

def names (reg : Registry) : List String := reg.definitions.map Definition.name

def size (reg : Registry) : Nat := reg.definitions.length

def get? (reg : Registry) (name : String) : Option Definition :=
  reg.definitions.find? fun d => d.name == name

def has (reg : Registry) (name : String) : Bool := (reg.get? name).isSome

def item (reg : Registry) (name : String) : Except Failure Definition :=
  match reg.get? name with
  | some d => .ok d
  | none => .error (.fault .missingEntry)

instance : Membership String Registry := ⟨fun reg name => reg.has name = true⟩

instance (name : String) (reg : Registry) : Decidable (name ∈ reg) :=
  inferInstanceAs (Decidable (reg.has name = true))

instance {m : Type → Type} [Monad m] : ForIn m Registry String :=
  ⟨fun reg init step => forIn reg.names init step⟩

theorem get?_eq_none_iff {reg : Registry} {name : String} :
    reg.get? name = none ↔ name ∉ reg.names := by
  simp only [get?, names, List.find?_eq_none, List.mem_map, not_exists, not_and, beq_iff_eq]

def add (reg : Registry) (d : Definition) (h : reg.get? d.name = none) : Registry where
  definitions := reg.definitions ++ [d]
  nodup := by
    rw [List.map_append, List.nodup_append]
    refine ⟨reg.nodup, by simp, ?_⟩
    intro a ha b hb hab
    simp only [List.map_cons, List.map_nil, List.mem_singleton] at hb
    exact get?_eq_none_iff.1 h (hb ▸ hab ▸ ha)

/-- The registry with one more definition, unless its name is taken. -/
def register (r : Reporter) (reg : Registry) (d : Definition) : Except Failure Registry :=
  match h : reg.get? d.name with
  | some previous =>
    .error (.diagnostic (r.report (.duplicateComponent d.name (some previous.location))
      (some d.location)))
  | none => .ok (reg.add d h)

def display (reg : Registry) : String := "ComponentRegistry(" ++ Text.join ", " reg.names ++ ")"

@[simp] theorem names_empty : empty.names = [] := rfl

@[simp] theorem names_add (reg : Registry) (d : Definition) (h : reg.get? d.name = none) :
    (reg.add d h).names = reg.names ++ [d.name] := by simp [add, names]

theorem names_nodup (reg : Registry) : reg.names.Nodup := reg.nodup

theorem name_of_get? {reg : Registry} {name : String} {d : Definition}
    (h : reg.get? name = some d) : d.name = name := by
  have := List.find?_some h
  simpa using this

end Registry

end PugComponents

/-! Sets of names, kept as lists in code point order without repetition, so that a set has one
representation. -/

namespace PugComponents.NameSet

def insert (name : String) : List String → List String
  | [] => [name]
  | other :: rest =>
    if name = other then other :: rest
    else if name < other then name :: other :: rest
    else other :: insert name rest

def ofList (names : List String) : List String := names.foldr insert []

@[simp] theorem mem_insert {a name : String} {set : List String} :
    a ∈ insert name set ↔ a = name ∨ a ∈ set := by
  induction set with
  | nil => simp [insert]
  | cons other rest ih =>
    rw [insert]
    split
    · rename_i h; subst h; simp
    · split
      · simp
      · rw [List.mem_cons, ih, List.mem_cons]
        constructor
        · rintro (h | h | h) <;> simp [h]
        · rintro (h | h | h) <;> simp [h]

@[simp] theorem mem_ofList {a : String} {names : List String} : a ∈ ofList names ↔ a ∈ names := by
  induction names with
  | nil => simp [ofList]
  | cons name names ih =>
    rw [show ofList (name :: names) = insert name (ofList names) from rfl, mem_insert, ih,
      List.mem_cons]

end PugComponents.NameSet

/-! JSON values. Objects keep their members in order of first appearance, integers have any size,
and a number with a fraction or an exponent keeps its decimal digits. -/

namespace PugComponents

/-- A number written with a fraction or an exponent, or one of the three names that stand for no
decimal: `±digits · 10 ^ exponent`. -/
inductive Numeral where
  | decimal (negative : Bool) (digits : Nat) (exponent : Int)
  | infinity (negative : Bool)
  | notANumber
deriving DecidableEq

inductive Json where
  | null
  | bool (value : Bool)
  | int (value : Int)
  | real (value : Numeral)
  | str (value : String)
  | arr (items : List Json)
  | obj (fields : List (String × Json))

namespace Json

instance : Inhabited Json := ⟨.null⟩

/-- With more digits than this, an integer is neither read nor written. -/
def digitLimit : Nat := 4300

mutual

def same : Json → Json → Bool
  | .null, .null => true
  | .bool a, .bool b => a == b
  | .int a, .int b => a == b
  | .real a, .real b => a == b
  | .str a, .str b => a == b
  | .arr a, .arr b => sameItems a b
  | .obj a, .obj b => sameFields a b
  | _, _ => false

def sameItems : List Json → List Json → Bool
  | [], [] => true
  | a :: as, b :: bs => same a b && sameItems as bs
  | _, _ => false

def sameFields : List (String × Json) → List (String × Json) → Bool
  | [], [] => true
  | (k, a) :: as, (l, b) :: bs => k == l && same a b && sameFields as bs
  | _, _ => false

end

instance : BEq Json := ⟨same⟩

/-- Every value but null, false, zero and the empty text, list and object. -/
def isTruthy : Json → Bool
  | .null => false
  | .bool b => b
  | .int n => n != 0
  | .real (.decimal _ digits _) => digits != 0
  | .real _ => true
  | .str s => s != ""
  | .arr items => !items.isEmpty
  | .obj fields => !fields.isEmpty

def isNull : Json → Bool
  | .null => true
  | _ => false

def str? : Json → Option String
  | .str s => some s
  | _ => none

def members : Json → List (String × Json)
  | .obj fields => fields
  | _ => []

def get? (v : Json) (key : String) : Option Json := v.members.lookup key

def getD (v : Json) (key : String) (default : Json) : Json := (v.get? key).getD default

def elements : Json → List Json
  | .arr items => items
  | _ => []

/-- A member set to a value. A key that is present keeps its place. -/
def put : List (String × Json) → String → Json → List (String × Json)
  | [], key, value => [(key, value)]
  | (k, v) :: rest, key, value => if k = key then (k, value) :: rest else (k, v) :: put rest key value

@[simp] theorem str?_str (s : String) : (Json.str s).str? = some s := rfl

@[simp] theorem get?_obj (fields : List (String × Json)) (key : String) :
    (Json.obj fields).get? key = fields.lookup key := rfl

theorem put_keys_of_mem {fields : List (String × Json)} {key : String} (value : Json)
    (h : key ∈ fields.map Prod.fst) : (put fields key value).map Prod.fst = fields.map Prod.fst := by
  induction fields with
  | nil => simp at h
  | cons f rest ih =>
    rw [put]
    split
    · simp
    · rename_i hk
      simp only [List.map_cons, List.mem_cons] at h
      rcases h with h | h
      · exact absurd h.symm hk
      · simp [ih h]

theorem put_keys_of_not_mem {fields : List (String × Json)} {key : String} (value : Json)
    (h : key ∉ fields.map Prod.fst) :
    (put fields key value).map Prod.fst = fields.map Prod.fst ++ [key] := by
  induction fields with
  | nil => rfl
  | cons f rest ih =>
    simp only [List.map_cons, List.mem_cons, not_or] at h
    rw [put, if_neg (fun hk => h.1 hk.symm)]
    simp [ih h.2]

end Json

end PugComponents

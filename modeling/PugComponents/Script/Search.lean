import PugComponents.Text.Split

/-! Searching a text for a pattern from left to right. Occurrences do not overlap: after one the search
goes on behind it. A pattern also sees the character before the place where it is tried. -/

namespace PugComponents.Script

/-- A reader: what it read and the characters left, or nothing. -/
abbrev Reader (α : Type) := StateT (List Char) Option α

/-- A pattern, given the character before it. -/
abbrev Finder (α : Type) := Option Char → Reader α

variable {α : Type}

/-- The occurrences in a text, with a number of characters that belong to the last one still to pass. -/
def findAllFrom (p : Finder α) : Option Char → Nat → List Char → List α
  | _, _, [] => []
  | _, passed + 1, c :: cs => findAllFrom p (some c) passed cs
  | before, 0, c :: cs =>
    match p before (c :: cs) with
    | some (a, left) => a :: findAllFrom p (some c) (cs.length - left.length) cs
    | none => findAllFrom p (some c) 0 cs

def findAll (p : Finder α) (cs : List Char) : List α := findAllFrom p none 0 cs

def replaceAllFrom (p : Finder (List Char)) : Option Char → Nat → List Char → List Char
  | _, _, [] => []
  | _, passed + 1, c :: cs => replaceAllFrom p (some c) passed cs
  | before, 0, c :: cs =>
    match p before (c :: cs) with
    | some (new, left) => new ++ replaceAllFrom p (some c) (cs.length - left.length) cs
    | none => c :: replaceAllFrom p (some c) 0 cs

def replaceAll (p : Finder (List Char)) (cs : List Char) : List Char := replaceAllFrom p none 0 cs

def perhaps (r : Reader α) : Reader (Option α) := fun cs =>
  match r cs with
  | some (a, rest) => some (some a, rest)
  | none => some (none, cs)

def takes (r : Reader α) : Reader Bool := do
  let found ← perhaps r
  return found.isSome

def takeAll (p : Char → Bool) : Reader (List Char) := fun cs =>
  some (cs.takeWhile p, cs.dropWhile p)

def takeOne (p : Char → Bool) : Reader Char := fun cs =>
  match cs with
  | c :: cs => if p c then some (c, cs) else none
  | [] => none

def exactly (s : String) : Reader Unit := fun cs =>
  (Text.dropStart? s.toList cs).map fun left => ((), left)

def notNext (p : Char → Bool) : Reader Unit := fun cs =>
  if (cs.head?.map p).getD false then none else some ((), cs)

@[simp] theorem findAll_nil (p : Finder α) : findAll p [] = [] := rfl

@[simp] theorem replaceAll_nil (p : Finder (List Char)) : replaceAll p [] = [] := rfl

end PugComponents.Script

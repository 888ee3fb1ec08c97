import PugComponents.Json.Write
import PugComponents.Text.Blank
import PugComponents.Usage

/-! The attributes of a call as bindings of names to pieces of script. A bare attribute stands for a
variable of the same name. A name that is given again keeps its place and takes the new value. -/

namespace PugComponents

/-- Names with their values, in the order in which the names were first given. -/
abbrev Bindings := List (String × Json)

namespace Bindings

def valueOf (name : String) : Json → Json
  | .bool true => .str name
  | .bool false => .str "false"
  | v => v

def extend : Bindings → List Attribute → Except Failure Bindings
  | b, [] => .ok b
  | b, attr :: attrs =>
    match attr.name with
    | .str name => extend (Json.put b name (valueOf name attr.val)) attrs
    | _ => .error (.fault .wrongKind)

def ofAttributes (attrs : List Attribute) : Except Failure Bindings := extend [] attrs

def ofPairs (pairs : List (String × Json)) : Bindings :=
  pairs.foldl (fun b p => Json.put b p.1 p.2) []

def props (b : Bindings) (usage : Usage) : Bindings := b.filter fun p => usage.props.contains p.1

def attrs (b : Bindings) (usage : Usage) : Bindings := b.filter fun p => !usage.props.contains p.1

theorem mem_props {b : Bindings} {usage : Usage} {p : String × Json} :
    p ∈ b.props usage ↔ p ∈ b ∧ p.1 ∈ usage.props := by simp [props]

theorem mem_attrs {b : Bindings} {usage : Usage} {p : String × Json} :
    p ∈ b.attrs usage ↔ p ∈ b ∧ p.1 ∉ usage.props := by simp [attrs]

end Bindings

def isNameLetter (c : Char) : Bool := c.isAlpha || c == '_' || c == '$'

def isPlainName (cs : List Char) : Bool :=
  match cs with
  | c :: cs => isNameLetter c && cs.all fun c => isNameLetter c || c.isDigit
  | [] => false

def valueNames : List String := ["true", "false", "null", "undefined", "$props", "$attrs"]

def isVariableReference (source : String) : Bool :=
  isPlainName (Text.trimChars source.toList) && !valueNames.contains (Text.trim source)

namespace Bindings

def sourceOf : Json → Except Failure String
  | .str s => .ok s
  | _ => .error (.fault .missingPart)

/-- The variables that are bound to names, each once, in the order in which they occur. -/
def captured (b : Bindings) : Except Failure (List String) := do
  let sources ← b.mapM fun p => sourceOf p.2
  return ((sources.filter isVariableReference).map Text.trim).eraseDups

end Bindings

end PugComponents

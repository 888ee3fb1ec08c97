import PugComponents.Text.Blank
import PugComponents.Tree.Survey

/-! Attributes that are exactly a name bound to a part of `$props` or `$attrs` are written as they are:
escaping would turn a truth value into a text. -/

namespace PugComponents

namespace Attribute

/-- Whether the attribute is escaped and its value is one of the names and nothing else. -/
def isDerived (names : List String) (attr : Attribute) : Bool :=
  match attr.val with
  | .str source => names.contains (Text.trim source) && attr.mustEscape.isTruthy
  | _ => false

def unescape (names : List String) (attr : Attribute) : Attribute :=
  if attr.isDerived names then { attr with mustEscape := .bool false } else attr

end Attribute

namespace Owner

def unescape (names : List String) : Owner → Owner
  | .tag element => .tag { element with attrs := element.attrs.map (Attribute.unescape names) }
  | head => head

end Owner

namespace Node

def derivedAttributes (names : List String) (n : Node) : Except Failure (List Attribute) :=
  match n.tag? with
  | some element => .ok (element.attrs.filter (Attribute.isDerived names))
  | none => .ok []

/-- How many attributes below a node are derived from the names, and the tree with all of them written
as they are. -/
def unescape (names : List String) (body : Node) : Except Failure (Nat × Node) :=
  if names.isEmpty then .ok (0, body)
  else do
    let changed ← body.survey (derivedAttributes names)
    return (changed.length, body.mapOwners (Owner.unescape names))

end Node

end PugComponents

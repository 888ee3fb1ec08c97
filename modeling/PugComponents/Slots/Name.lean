import PugComponents.Tree.Vocabulary

/-! The name of a slot: the value of its attribute `name`, or else its first bare attribute. -/

namespace PugComponents

def defaultSlot : String := "default"

namespace Node

def bareAttribute? (attrs : List Attribute) : Option Attribute :=
  attrs.find? fun attr => attr.val == .bool true

/-- The name of a slot. An attribute `name` without a text as its value is refused. -/
def slotName (r : Reporter) (n : Node) : Except Failure String :=
  match n.attrs? with
  | none => .error (.fault .missingPart)
  | some attrs =>
    match findAttribute attrs "name" with
    | some attr =>
      match attr.val with
      | .str value => .ok (stripQuotes (Text.trim value))
      | _ => .error (.diagnostic (r.report (.invalidDefinition "Invalid slot name attribute value"
          (some "Use slot(name=\"header\") or the bare form slot(header).")) (some n.location)))
    | none =>
      match bareAttribute? attrs with
      | some attr => .ok attr.name.display
      | none => .ok defaultSlot

end Node

end PugComponents

import PugComponents.Failure

/-! What an expansion records on the way for those who watch it. -/

namespace PugComponents

inductive Record where
  /-- Attributes are not forwarded, since there is more than one element to forward them to. -/
  | severalRoots (component : String)
  /-- A component reads a variable of its caller, which is tolerated. -/
  | externalVariable (d : Diagnostic)
  | registered (component : String) (location : Location) (slots : List String) (takesKeys : Bool)
  | expanding (component : String) (location : Location) (depth : Nat)
  | expanded (filename : Json) (components : Nat)

abbrev Recorded (α : Type) := Run Record α

namespace Record

def isWarning : Record → Bool
  | .severalRoots _ => true
  | .externalVariable _ => true
  | _ => false

def message : Record → String
  | .severalRoots component =>
    "Component \"" ++ component ++ "\" has multiple root elements. " ++
      "Attribute fallthrough is disabled. Use &attributes($attrs) explicitly if needed."
  | .externalVariable d => d.text
  | .registered component location slots takesKeys =>
    "Registered component " ++ component ++ " at " ++ location.format ++ " (slots: " ++
      (if Text.join ", " slots = "" then "-" else Text.join ", " slots) ++ ", usage: " ++
      (if takesKeys then "props/attrs" else "legacy") ++ ")"
  | .expanding component location depth =>
    "Expanding " ++ component ++ " at " ++ location.format ++ " (depth " ++ toString depth ++ ")"
  | .expanded filename components =>
    "Expanded " ++ (if filename.isTruthy then filename.display else "<template>") ++ " with " ++
      toString components ++ " component(s)"

end Record

end PugComponents

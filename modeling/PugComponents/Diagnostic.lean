import PugComponents.Location
import PugComponents.Terminal
import PugComponents.Text.Lines

/-! Diagnostics about a template: the cause, in terms of components, slots and scope, and the place.
The wording of each cause stands in `Cause.message` and `Cause.hint`, and nowhere else. -/

namespace PugComponents

inductive Cause where
  | componentNotFound (name : String) (available : List String)
  | duplicateComponent (name : String) (previous : Option Location)
  | duplicateSlotProvided (name : String)
  | duplicateSlotDefinition (name : String) (previous : Option Location)
  | slotNotDefined (name : String) (available : List String)
  | recursiveCall (cycle : List String)
  | externalVariable (name component : String)
  | unexpectedNode (expected actual : String)
  | invalidDefinition (message : String) (hint : Option String)
  | expansionDepth
  | traversal (message : String) (hint : Option String)
  | general (message : String) (hint : Option String)

/-- The searchable code of a cause. -/
inductive ErrorCode where
  | componentNotFound | duplicateComponent | recursiveComponentCall | invalidComponentDefinition
  | expansionDepth
  | duplicateSlotProvided | duplicateSlotDefinition | slotNotDefined
  | externalVariableReference
  | unexpectedNodeType | traversalContract
deriving DecidableEq

inductive Category where
  | component | slot | scope | ast
deriving DecidableEq

namespace Category

def name : Category → String
  | .component => "component"
  | .slot => "slot"
  | .scope => "scope"
  | .ast => "ast"

end Category

namespace ErrorCode

def category : ErrorCode → Category
  | .componentNotFound | .duplicateComponent | .recursiveComponentCall
  | .invalidComponentDefinition | .expansionDepth => .component
  | .duplicateSlotProvided | .duplicateSlotDefinition | .slotNotDefined => .slot
  | .externalVariableReference => .scope
  | .unexpectedNodeType | .traversalContract => .ast

def text : ErrorCode → String
  | .componentNotFound => "PT-CMP-001"
  | .duplicateComponent => "PT-CMP-002"
  | .recursiveComponentCall => "PT-CMP-003"
  | .invalidComponentDefinition => "PT-CMP-004"
  | .expansionDepth => "PT-CMP-005"
  | .duplicateSlotProvided => "PT-SLT-001"
  | .duplicateSlotDefinition => "PT-SLT-002"
  | .slotNotDefined => "PT-SLT-003"
  | .externalVariableReference => "PT-SCP-001"
  | .unexpectedNodeType => "PT-AST-001"
  | .traversalContract => "PT-AST-002"

def docs (code : ErrorCode) : String := "docs/errors.md#" ++ code.text.map Char.toLower

end ErrorCode

namespace Cause

def code? : Cause → Option ErrorCode
  | .componentNotFound .. => some .componentNotFound
  | .duplicateComponent .. => some .duplicateComponent
  | .duplicateSlotProvided .. => some .duplicateSlotProvided
  | .duplicateSlotDefinition .. => some .duplicateSlotDefinition
  | .slotNotDefined .. => some .slotNotDefined
  | .recursiveCall .. => some .recursiveComponentCall
  | .externalVariable .. => some .externalVariableReference
  | .unexpectedNode .. => some .unexpectedNodeType
  | .invalidDefinition .. => some .invalidComponentDefinition
  | .expansionDepth => some .expansionDepth
  | .traversal .. => some .traversalContract
  | .general .. => none

def message : Cause → String
  | .componentNotFound name _ => "Component \"" ++ name ++ "\" not found"
  | .duplicateComponent name _ => "Component \"" ++ name ++ "\" is already defined"
  | .duplicateSlotProvided name => "Duplicate slot \"" ++ name ++ "\" provided"
  | .duplicateSlotDefinition name _ => "Duplicate slot \"" ++ name ++ "\" defined in component"
  | .slotNotDefined name _ => "Slot \"" ++ name ++ "\" is not defined in this component"
  | .recursiveCall cycle => "Recursive component call detected: " ++ Text.join " -> " cycle
  | .externalVariable name component =>
    "Component \"" ++ component ++ "\" references external variable \"" ++ name ++ "\""
  | .unexpectedNode expected actual => "Expected " ++ expected ++ " node, but got " ++ actual
  | .invalidDefinition message _ => message
  | .expansionDepth => "Maximum expansion depth exceeded"
  | .traversal message _ => message
  | .general message _ => message

def hint : Cause → Option String
  | .componentNotFound _ available =>
    some (if available.isEmpty then
      "No components are defined. Make sure to define components before use."
    else "Available components: " ++ Text.join ", " available)
  | .duplicateComponent _ previous => previous.map fun p => "Previously defined at " ++ p.format
  | .duplicateSlotProvided name =>
    some (if name = "default" then "Use either an explicit slot(default) or bare content, not both."
    else "Each slot can only be provided once per component call.")
  | .duplicateSlotDefinition _ previous =>
    some ("Slot names must be unique unless they sit in mutually exclusive branches." ++
      match previous with
      | none => ""
      | some p => "\nPreviously defined at " ++ p.format)
  | .slotNotDefined _ available =>
    some (if available.isEmpty then "This component does not define any slots."
    else "Available slots: " ++ Text.join ", " available)
  | .recursiveCall _ => some "Components cannot call themselves directly or indirectly."
  | .externalVariable name component =>
    some ("Pass it as a prop: " ++ component ++ "(" ++ name ++ "=" ++ name ++ ")\n" ++
      "Or declare it inside the component\n" ++
      "Or set scopeIsolation to 'warn' or 'off'")
  | .unexpectedNode .. => none
  | .invalidDefinition _ hint => hint
  | .expansionDepth =>
    some ("The template nests too deeply. Flatten the component tree " ++
      "or raise sys.setrecursionlimit().")
  | .traversal _ hint => hint
  | .general _ hint => hint

end Cause

/-- A cause and the place it is about, if that is known. -/
structure Diagnostic where
  cause : Cause
  location : Option Location := none

namespace Diagnostic

/-- The full text: message, place and hint. An empty hint is not shown. -/
def text (d : Diagnostic) : String :=
  d.cause.message ++
    (match d.location with
    | none => ""
    | some loc => " at " ++ loc.format) ++
    (match d.cause.hint with
    | none => ""
    | some hint => if hint = "" then "" else "\n\nHint: " ++ hint)

/-- The lines of the hint: the first after a label, the others below it. -/
def hintLines (colors : Bool) (hint : String) : List String :=
  match Text.lines hint with
  | [] => []
  | line :: others =>
    ("  Hint: " ++ Terminal.Role.hint.paint colors line) ::
      others.map fun line => "        " ++ Terminal.Role.hint.paint colors line

/-- The lines of the short form: code and message, place, hint, documentation anchor. -/
def compactLines (colors : Bool) (d : Diagnostic) : List String :=
  (match d.cause.code? with
    | none => [d.cause.message]
    | some code => [Terminal.Role.errorCode.paint colors code.text ++ ": " ++ d.cause.message]) ++
  (match d.location with
    | none => []
    | some loc => ["  --> " ++ Terminal.Role.location.paint colors loc.format]) ++
  (match d.cause.hint with
    | none => []
    | some hint => if hint = "" then [] else hintLines colors hint) ++
  (match d.cause.code? with
    | none => []
    | some code => ["  Docs: " ++ Terminal.Role.docs.paint colors code.docs])

def compact (colors : Bool) (d : Diagnostic) : String := Text.join "\n" (compactLines colors d)

end Diagnostic

/-- Builds diagnostics for one template: places that record no file are given its name. -/
structure Reporter where
  filename : Json := .null

namespace Reporter

/-- The place to report. An unknown place is still one in the template, if that has a name. -/
def place (r : Reporter) : Option Location → Option Location
  | none => if r.filename.isTruthy then some { filename := r.filename } else none
  | some loc => some (loc.withFilename r.filename)

/-- The cause with the earlier place that it mentions completed as well. -/
def complete (r : Reporter) : Cause → Cause
  | .duplicateComponent name previous => .duplicateComponent name (r.place previous)
  | .duplicateSlotDefinition name previous => .duplicateSlotDefinition name (r.place previous)
  | cause => cause

def report (r : Reporter) (cause : Cause) (location : Option Location) : Diagnostic :=
  { cause := r.complete cause, location := r.place location }

@[simp] theorem place_some (r : Reporter) (loc : Location) :
    r.place (some loc) = some (loc.withFilename r.filename) := rfl

end Reporter

end PugComponents

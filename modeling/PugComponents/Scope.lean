import PugComponents.Config
import PugComponents.Text.Blank
import PugComponents.Tree.Vocabulary
import PugComponents.Usage

/-! The names that a component body declares and reads. A name that is declared anywhere in the body
counts as declared everywhere in it. What the body reads without owning it belongs to the caller. -/

namespace PugComponents

def builtinNames : List String :=
  ["console", "Math", "Date", "JSON", "Object", "Array", "String", "Number", "Boolean", "RegExp",
    "Error", "Promise", "Set", "Map", "WeakMap", "WeakSet", "Symbol", "BigInt", "Proxy", "Reflect",
    "globalThis", "undefined", "null", "true", "false", "NaN", "Infinity", "attributes", "block",
    "$props", "$attrs"]

/-- What one expression or one piece of code says about names. -/
structure Sighting where
  declared : List String := []
  /-- Values that are no text and stand where a name is declared. -/
  nameless : List Json := []
  referenced : List String := []
  /-- Names bound to parts of `$props`. -/
  props : List String := []
  /-- Names bound to parts of `$attrs`. -/
  attrs : List String := []

namespace Sighting

def ofFragment (f : Script.Fragment) : Sighting where
  declared := f.declared
  referenced := f.referenced
  props := (f.destructurings.filter fun d => d.source != "$attrs").flatMap (·.bindings)
  attrs := (f.destructurings.filter fun d => d.source == "$attrs").flatMap (·.bindings)

def declares (names : List String) : Sighting := { declared := names }

def reads (names : List String) : Sighting := { referenced := names }

end Sighting

namespace Json

def expressionSightings (v : Json) : Except Failure (List Sighting) :=
  match v with
  | .str source =>
    if Text.trim source = "" then .ok []
    else .ok [.ofFragment (Script.Fragment.analyze source true)]
  | v => if v.isTruthy then .error (.fault .missingPart) else .ok []

def codeSightings (v : Json) : Except Failure (List Sighting) :=
  match v with
  | .str source =>
    if Text.trim source = "" then .ok []
    else .ok [.ofFragment (Script.Fragment.analyze source false)]
  | _ => .error (.fault .missingPart)

/-- A recorded name, as something that is declared. A list or an object cannot stand for one. -/
def declaredName (v : Json) : Except Failure Sighting :=
  match v with
  | .str name => .ok (.declares [name])
  | .arr _ => .error (.fault .wrongKind)
  | .obj _ => .error (.fault .wrongKind)
  | v => .ok { nameless := [v] }

def readName (v : Json) : Except Failure Sighting :=
  match v with
  | .str name => .ok (.reads [name])
  | .arr _ => .error (.fault .wrongKind)
  | .obj _ => .error (.fault .wrongKind)
  | _ => .ok {}

end Json

def attributeSightings (attrs : List Attribute) (spreads : List Spread) :
    Except Failure (List Sighting) := do
  let values ← attrs.mapM fun attr => match attr.val with
    | .str source => Json.expressionSightings (.str source)
    | _ => .ok []
  let others ← spreads.mapM fun spread => spread.val.expressionSightings
  return values.flatten ++ others.flatten

def mixinParameter? (param : List Char) : Option String :=
  let param := Text.trimChars param
  let param := (Text.dropStart? ['.', '.', '.'] param).getD param
  let name := Text.trimChars (Text.beforeFirst '=' param)
  if name.isEmpty then none else some (String.ofList name)

/-- The names in the arguments of a mixin: a call reads them, a definition declares them. -/
def mixinSightings (head : MixinHead) : Except Failure (List Sighting) :=
  if !head.args.isTruthy then .ok []
  else if head.call.isTruthy then Json.expressionSightings (.str ("[" ++ head.args.display ++ "]"))
  else match head.args with
    | .str params => .ok [.declares ((Text.splitAll ',' params.toList).filterMap mixinParameter?)]
    | _ => .error (.fault .missingPart)

namespace Node

/-- The names in a node's own expressions. A bare attribute of a call reads the variable that it
names. -/
def sightings (n : Node) : Except Failure (List Sighting) :=
  match n with
  | .owner _ (.code val buffer ..) _ =>
    if buffer.isTruthy then val.expressionSightings else val.codeSightings
  | .owner _ (.whileLoop test) _ => test.expressionSightings
  | .owner _ (.caseOf expr) _ => expr.expressionSightings
  | .owner _ (.whenArm expr _) _ =>
    if expr == .str "default" then .ok [] else expr.expressionSightings
  | .owner _ (.interpolatedTag element) _ => do
    let own ← element.label.expressionSightings
    let others ← attributeSightings element.attrs element.spreads
    return own ++ others
  | .owner _ (.tag element) _ => do
    let own ← attributeSightings element.attrs element.spreads
    if ← n.callCheck then
      let names ← (element.attrs.filter fun attr => attr.val == .bool true).mapM fun attr =>
        attr.name.readName
      return own ++ names
    else return own
  | .owner _ (.mixin head) _ => do
    let own ← attributeSightings head.attrs head.spreads
    let others ← mixinSightings head
    return own ++ others
  | .fork _ (.conditional test) _ _ => test.expressionSightings
  | .fork _ (.each obj val key) _ _ => do
    let own ← obj.expressionSightings
    let item ← val.declaredName
    let index ← if key.isTruthy then key.declaredName else .ok {}
    return own ++ [item, index]
  | _ => .ok []

end Node

structure Scope where
  declared : List String := []
  /-- Values that are no text and stand where a name is declared. -/
  nameless : List Json := []
  referenced : List String := []
  props : List String := []
  attrs : List String := []
  /-- Names that are read and belong to the caller. -/
  external : List String := []

namespace Scope

/-- All that is declared, in order. Only names have an order among each other. -/
def declaredValues (s : Scope) : Except Failure (List Json) :=
  match s.declared, s.nameless with
  | declared, [] => .ok (declared.map .str)
  | [], [v] => .ok [v]
  | _, _ => .error (.fault .wrongKind)

/-- Names bound to parts of `$props` or `$attrs`. -/
def derived (s : Scope) : List String := NameSet.ofList (s.props ++ s.attrs)

/-- The sets of all names that are sighted; those in `allowed` may be read without owning them. -/
def ofSightings (allowed : List String) (ss : List Sighting) : Scope :=
  let declared := NameSet.ofList (ss.flatMap (·.declared))
  let referenced := NameSet.ofList (ss.flatMap (·.referenced))
  let props := NameSet.ofList (ss.flatMap (·.props))
  let attrs := NameSet.ofList (ss.flatMap (·.attrs))
  { declared := declared, nameless := (ss.flatMap (·.nameless)).eraseDups
    referenced := referenced, props := props, attrs := attrs
    external := referenced.filter fun name =>
      !(declared.contains name || props.contains name || attrs.contains name ||
        builtinNames.contains name || allowed.contains name) }

def analyze (allowed : List String) (body : Node) : Except Failure Scope := do
  let ss ← body.survey Node.sightings
  return ofSightings allowed ss

def allows (s : Scope) (config : Option Config) (name : String) : Bool :=
  builtinNames.contains name || ((config.map fun c => c.allowedGlobals.contains name).getD false) ||
    s.declared.contains name || s.derived.contains name

end Scope

end PugComponents

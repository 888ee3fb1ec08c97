import PugComponents.Failure
import PugComponents.Json.Read
import PugComponents.Tree.Node

/-! Reading a tree from JSON. Fields that are absent have the defaults of their kind, fields that the
kind does not know are ignored, and null entries in a list of nodes are dropped. Every value is read
once as a node and once as a list of nodes; a kind then picks the reading that its field needs, in
the order of its fields, so that the first fault in that order is the one reported. -/

namespace PugComponents

/-- A JSON value together with what it says as a node and as a list of nodes. -/
structure Reading where
  value : Json
  node : Except Failure Node
  nodes : Except Failure (List Node)

abbrev Readings := List (String × Reading)

def unexpectedNode (actual : String) (location : Option Location := none) : Failure :=
  .diagnostic { cause := .unexpectedNode "Pug AST" actual, location := location }

namespace Json

/-- The line of an attribute: any empty value counts as zero. -/
def lineOrZero (v : Json) : Json := if v.isTruthy then v else .int 0

def position (v : Json) : Position where
  line := (v.getD "line" .null).lineOrZero
  column := v.getD "column" .null
  filename := v.getD "filename" .null

end Json

namespace Attribute

def ofJson : Json → Except Failure Attribute
  | v@(.obj fields) =>
    match fields.lookup "name" with
    | none => .error (.fault .missingEntry)
    | some name =>
      .ok { name := name
            val := v.getD "val" (.bool true)
            mustEscape := v.getD "mustEscape" (.bool true)
            pos := v.position }
  | _ => .error (.fault .wrongKind)

/-- A list of attributes. An empty text or object is an empty list. -/
def listOfJson : Json → Except Failure (List Attribute)
  | .arr items => items.mapM ofJson
  | .str "" => .ok []
  | .obj [] => .ok []
  | _ => .error (.fault .wrongKind)

end Attribute

namespace Spread

/-- An object with the expression, or the bare expression. -/
def ofJson : Json → Except Failure Spread
  | .str s => .ok { val := .str s }
  | v@(.obj fields) =>
    match fields.lookup "val" with
    | none => .error (.fault .missingEntry)
    | some val => .ok { val := val, pos := v.position }
  | _ => .error (.fault .wrongKind)

/-- A list of spreads. A text is a list of its characters and an object one of its keys. -/
def listOfJson : Json → Except Failure (List Spread)
  | .arr items => items.mapM ofJson
  | .str s => .ok (s.toList.map fun c => { val := .str (String.singleton c) })
  | .obj fields => .ok (fields.map fun f => { val := .str f.1 })
  | _ => .error (.fault .wrongKind)

end Spread

namespace Readings

def scalar (rs : Readings) (key : String) (default : Json) : Json :=
  match rs.lookup key with
  | some r => r.value
  | none => default

/-- The child in a field: null is a missing child. -/
def child (rs : Readings) (key : String) (default : Option Node := none) :
    Except Failure (Option Node) :=
  match rs.lookup key with
  | none => .ok default
  | some r => if r.value.isNull then .ok none else r.node.map some

def nodes (rs : Readings) : Except Failure (List Node) :=
  match rs.lookup "nodes" with
  | none => .ok []
  | some r => r.nodes

def attrs (rs : Readings) : Except Failure (List Attribute) :=
  match rs.lookup "attrs" with
  | none => .ok []
  | some r => Attribute.listOfJson r.value

def spreads (rs : Readings) : Except Failure (List Spread) :=
  match rs.lookup "attributeBlocks" with
  | none => .ok []
  | some r => Spread.listOfJson r.value

def required (rs : Readings) (key : String) : Except Failure Json :=
  match rs.lookup key with
  | none => .error (.fault .missingField)
  | some r => .ok r.value

/-- The place of a node: a null line counts as zero. -/
def position (rs : Readings) : Position :=
  let line := rs.scalar "line" (.int 0)
  { line := if line.isNull then .int 0 else line
    column := rs.scalar "column" .null
    filename := rs.scalar "filename" .null }

def location (rs : Readings) : Location :=
  { line := (rs.scalar "line" .null).lineOrZero
    column := rs.scalar "column" .null
    filename := rs.scalar "filename" .null }

/-- The head of an element; `key` is the name of its label. -/
def element (rs : Readings) (key : String) : Except Failure (Element × Option Node) := do
  let attrs ← rs.attrs
  let spreads ← rs.spreads
  let block ← rs.child "block"
  let label ← rs.required key
  return ({ label := label
            attrs := attrs
            spreads := spreads
            selfClosing := rs.scalar "selfClosing" (.bool false)
            isInline := rs.scalar "isInline" (.bool false) }, block)

def noFile : Node := .fileReference {} (.str "") .null none

def build (rs : Readings) (kind : Kind) : Except Failure Node :=
  let pos := rs.position
  match kind with
  | .block => return .seq pos .plain (← rs.nodes)
  | .namedBlock => do
    let nodes ← rs.nodes
    return .seq pos (.named (rs.scalar "name" (.str "")) (rs.scalar "mode" (.str "replace"))) nodes
  | .tag => do
    let (element, block) ← rs.element "name"
    return .owner pos (.tag element) block
  | .interpolatedTag => do
    let (element, block) ← rs.element "expr"
    return .owner pos (.interpolatedTag element) block
  | .mixin => do
    let attrs ← rs.attrs
    let spreads ← rs.spreads
    let block ← rs.child "block"
    let name ← rs.required "name"
    let head : MixinHead :=
      { name := name, args := rs.scalar "args" .null, call := rs.scalar "call" (.bool false)
        attrs := attrs, spreads := spreads }
    return .owner pos (.mixin head) block
  | .mixinBlock => return .leaf pos .mixinBlock
  | .yieldBlock => return .leaf pos .yieldBlock
  | .text => return .leaf pos (.text (rs.scalar "val" (.str "")))
  | .comment =>
    return .leaf pos (.comment (rs.scalar "val" (.str "")) (rs.scalar "buffer" (.bool true)))
  | .blockComment => do
    let block ← rs.child "block"
    return .owner pos
      (.blockComment (rs.scalar "val" (.str "")) (rs.scalar "buffer" (.bool true))) block
  | .code => do
    let block ← rs.child "block"
    return .owner pos
      (.code (rs.scalar "val" (.str "")) (rs.scalar "buffer" (.bool false))
        (rs.scalar "mustEscape" (.bool true)) (rs.scalar "isInline" (.bool false))) block
  | .doctype => return .leaf pos (.doctype (rs.scalar "val" (.str "")))
  | .filter => do
    let attrs ← rs.attrs
    let block ← rs.child "block"
    return .owner pos (.filter (rs.scalar "name" (.str "")) attrs) block
  | .conditional => do
    let main ← rs.child "consequent" (some Node.emptyBlock)
    let alternate ← rs.child "alternate"
    return .fork pos (.conditional (rs.scalar "test" (.str "true"))) main alternate
  | .each => do
    let main ← rs.child "block" (some Node.emptyBlock)
    let alternate ← rs.child "alternate"
    return .fork pos
      (.each (rs.scalar "obj" (.str "")) (rs.scalar "val" (.str "")) (rs.scalar "key" .null))
      main alternate
  | .whileLoop => do
    let block ← rs.child "block" (some Node.emptyBlock)
    return .owner pos (.whileLoop (rs.scalar "test" (.str "false"))) block
  | .caseOf => do
    let block ← rs.child "block" (some Node.emptyBlock)
    return .owner pos (.caseOf (rs.scalar "expr" (.str ""))) block
  | .whenArm => do
    let block ← rs.child "block"
    return .owner pos
      (.whenArm (rs.scalar "expr" (.str "default")) (rs.scalar "debug" (.bool false))) block
  | .inclusion => do
    let file ← rs.child "file" (some noFile)
    let block ← rs.child "block"
    return .inclusion pos file block
  | .extension => return .extension pos (← rs.child "file" (some noFile))
  | .rawInclusion => do
    let file ← rs.child "file" (some noFile)
    return .rawInclusion pos file (rs.scalar "filters" (.arr []))
  | .fileReference => do
    let ast ← rs.child "ast"
    return .fileReference pos (rs.scalar "path" (.str "")) (rs.scalar "fullPath" .null) ast

def node (rs : Readings) : Except Failure Node :=
  match rs.scalar "type" .null with
  | .str name =>
    match Kind.ofName? name with
    | some kind => rs.build kind
    | none => .error (unexpectedNode name (some rs.location))
  | v => .error (unexpectedNode v.display (some rs.location))

end Readings

namespace Reading

def collect : List Reading → Except Failure (List Node)
  | [] => .ok []
  | r :: rs =>
    if r.value.isNull then collect rs
    else do
      let n ← r.node
      let ns ← collect rs
      return n :: ns

mutual

def ofJson : Json → Reading
  | .obj fields =>
    { value := .obj fields
      node := Readings.node (ofFields fields)
      nodes :=
        match fields with
        | [] => .ok []
        | (key, _) :: _ => .error (unexpectedNode (Json.str key).kindName) }
  | .arr items =>
    { value := .arr items
      node := .error (unexpectedNode (Json.arr items).kindName)
      nodes := collect (ofItems items) }
  | .str s =>
    { value := .str s
      node := .error (unexpectedNode (Json.str s).kindName)
      nodes := if s = "" then .ok [] else .error (unexpectedNode (Json.str s).kindName) }
  | v =>
    { value := v
      node := .error (unexpectedNode v.kindName)
      nodes := .error (.fault .wrongKind) }

def ofItems : List Json → List Reading
  | [] => []
  | v :: vs => ofJson v :: ofItems vs

def ofFields : List (String × Json) → Readings
  | [] => []
  | (k, v) :: fs => (k, ofJson v) :: ofFields fs

end

end Reading

namespace Node

/-- The tree that a JSON value spells. -/
def ofJson (v : Json) : Except Failure Node := (Reading.ofJson v).node

def ofText (text : String) : Except Failure Node :=
  match Json.parse text with
  | .error .malformed => .error (.fault .notJson)
  | .error .tooManyDigits => .error (.fault .tooManyDigits)
  | .ok v => ofJson v

end Node

end PugComponents

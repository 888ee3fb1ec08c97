import PugComponents.Attributes.Unescape
import PugComponents.Definition.Placeholders
import PugComponents.Record
import PugComponents.Scope

/-! Component definitions. A `component` tag starts with its name; the rest is the body, which expansion
copies for every call. The body is checked once: its slots may repeat only in branches that exclude
each other, and it may read only names that it owns. -/

namespace PugComponents

/-- A slot that a component offers, with the content that stands in for what no call provides. -/
structure SlotDefinition where
  name : String
  content : Node
  location : Location
  path : String

structure Definition where
  name : String
  /-- The place of the body. -/
  pos : Position := {}
  /-- The nodes of the body. -/
  nodes : List Node := []
  /-- The slots of the body, each name once. -/
  slots : List SlotDefinition := []
  usage : Option Usage := none
  scope : Scope := {}
  location : Location := {}

namespace Definition

def body (d : Definition) : Node := Node.block d.pos d.nodes

def slotNames (d : Definition) : List String := d.slots.map (·.name)

def isNameRest (c : Char) : Bool := c.isAlpha || c.isDigit || c == '_'

/-- Whether only an empty parameter list follows a component name; its closing parenthesis may be
missing. -/
def isHeaderEnd (cs : List Char) : Bool :=
  match cs.dropWhile Text.isBlank with
  | [] => true
  | '(' :: cs =>
    match cs.dropWhile Text.isBlank with
    | ')' :: cs => cs.all Text.isBlank
    | cs => cs.isEmpty
  | _ => false

def headerName? (header : String) : Option String :=
  match header.toList with
  | c :: cs =>
    if c.isUpper && isHeaderEnd (cs.dropWhile isNameRest) then
      some (String.ofList (c :: cs.takeWhile isNameRest))
    else none
  | [] => none

def isText : Node → Bool
  | .leaf _ (.text _) => true
  | _ => false

def textOf : Node → Except Failure String
  | .leaf _ (.text (.str val)) => .ok val
  | _ => .error (.fault .missingPart)

def readName (r : Reporter) (location : Location) (nodes : List Node) : Except Failure String :=
  match nodes.find? isText with
  | none => .error (.diagnostic (r.report (.invalidDefinition "Component definition is missing a name"
      (some "Write the name after the keyword: component Card()")) (some location)))
  | some header => do
    let text ← textOf header
    match headerName? (Text.trim text) with
    | some name => return name
    | none => .error (.diagnostic (r.report
        (.invalidDefinition ("Invalid component name \"" ++ Text.trim text ++ "\"")
          (some "Component names start with an uppercase letter: component Card()")) (some location)))

/-- The nodes behind the name: all but the first text. -/
def withoutName : List Node → List Node
  | [] => []
  | n :: ns => if isText n then ns else n :: withoutName ns

def slotOf (r : Reporter) (p : Placeholder) : Except Failure SlotDefinition := do
  let name ← p.slot.slotName r
  return { name := name
           content := (p.slot.block?.getD none).getD (Node.emptyBlock p.slot.pos)
           location := (p.slot.location.withPath p.label).withFilename r.filename
           path := p.label }

/-- All slots in visiting order, after some that were seen before. -/
def collectSlots (r : Reporter) : List SlotDefinition → List Visit → Except Failure (List SlotDefinition)
  | seen, [] => .ok seen
  | _, .error f :: _ => .error (.fault f)
  | seen, .ok p :: visits => do
    let slot ← slotOf r p
    match seen.find? fun s => s.name == slot.name && s.path == slot.path with
    | some previous =>
      .error (.diagnostic (r.report (.duplicateSlotDefinition slot.name (some previous.location))
        (some slot.location)))
    | none => collectSlots r (seen ++ [slot]) visits

/-- The first slot of every name. -/
def firstOfName : List SlotDefinition → List SlotDefinition
  | [] => []
  | s :: ss => s :: (firstOfName ss).filter fun t => t.name != s.name

/-- Reports the names of the caller that a body reads: the first one ends it in the strict mode, all
are recorded in the lenient one. -/
def checkScope (r : Reporter) (mode : ScopeMode) (name : String) (location : Location) :
    List String → Recorded Unit
  | [] => return ()
  | externalName :: names =>
    let d := r.report (.externalVariable externalName name) (some location)
    match mode with
    | .off => return ()
    | .error => Run.fail (.diagnostic d)
    | .warn => do
      Run.note (.externalVariable d)
      checkScope r mode name location names

def unescaped (usage : Option Usage) (scope : Scope) (body : Node) : Except Failure (List Node) :=
  match usage with
  | none => .ok (body.nodes?.getD [])
  | some _ => do
    let (_, body) ← body.unescape scope.derived
    return body.nodes?.getD []

/-- How the script in a body is analysed: for the keys that it takes, and for the names that it declares
and reads besides those that are allowed. -/
structure Analysis where
  usage : Node → Except Failure (Option Usage) := Node.usage
  scope : List String → Node → Except Failure Scope := Scope.analyze

def ofNodes (config : Config) (tag : Node) (nodes : List Node) (analysis : Analysis := {}) :
    Recorded Definition := do
  let r := config.reporter
  let location := tag.location.withFilename r.filename
  let name ← readName r location nodes
  let body := Node.block tag.pos (withoutName nodes)
  let slots ← collectSlots r [] (body.placeholders [])
  let usage ← analysis.usage body
  let scope ← analysis.scope config.allowedGlobals body
  checkScope r config.mode name location scope.external
  let nodes ← unescaped usage scope body
  return { name := name, pos := tag.pos, nodes := nodes, slots := firstOfName slots
           usage := usage, scope := scope, location := location }

def nodesBelow (n : Node) : Except Failure (List Node) :=
  match n.block? with
  | none => .error (.fault .missingPart)
  | some none => .ok []
  | some (some block) =>
    match block.nodes? with
    | some nodes => .ok nodes
    | none => .error (.fault .missingPart)

def ofNode (config : Config) (n : Node) (analysis : Analysis := {}) : Recorded Definition := do
  let nodes ← nodesBelow n
  ofNodes config n nodes analysis

end Definition

end PugComponents

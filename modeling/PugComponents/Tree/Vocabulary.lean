import PugComponents.Failure
import PugComponents.Text.Blank
import PugComponents.Text.Uppercase
import PugComponents.Tree.Node

/-! The words that make up components: a tag `component` defines one, a tag whose name starts with
an uppercase letter calls one, and a tag `slot` marks or provides content. -/

namespace PugComponents

def startsUppercase (s : String) : Bool :=
  match s.toList with
  | c :: _ => Text.isUppercase c
  | [] => false

def stripQuotes (s : String) : String :=
  match s.toList with
  | q :: rest =>
    if (q = '\x27' ∨ q = '"' ∨ q.toNat = 0x60) ∧ rest.getLast? = some q then
      String.ofList rest.dropLast
    else s
  | [] => s

namespace Node

def isTagNamed (name : String) (n : Node) : Bool :=
  match n.tag? with
  | some element => element.label == .str name
  | none => false

def isDefinition (n : Node) : Bool := n.isTagNamed "component"

def isSlot (n : Node) : Bool := n.isTagNamed "slot"

def calledName? (n : Node) : Option String :=
  match n.tag? with
  | some { label := .str name, .. } => if startsUppercase name then some name else none
  | _ => none

def isCall (n : Node) : Bool := n.calledName?.isSome

def isComment (n : Node) : Bool :=
  match n with
  | .leaf _ (.comment ..) => true
  | .owner _ (.blockComment ..) _ => true
  | _ => false

/-- What hinders asking whether a tag is a call: its name is no text. -/
def labelFault? (n : Node) : Option Fault :=
  match n.tag? with
  | some { label := .str _, .. } => none
  | some { label := .arr _, .. } => some .missingPart
  | some _ => some .wrongKind
  | none => none

/-- Whether the node is a call, if that can be told. -/
def callCheck (n : Node) : Except Failure Bool :=
  match n.labelFault? with
  | some f => .error (.fault f)
  | none => .ok n.isCall

@[simp] theorem tag?_block (pos : Position) (nodes : List Node) : (block pos nodes).tag? = none := rfl

end Node

def findAttribute (attrs : List Attribute) (name : String) : Option Attribute :=
  attrs.find? fun attr => attr.name == .str name

end PugComponents

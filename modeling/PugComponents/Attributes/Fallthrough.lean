import PugComponents.Attributes.Prologue
import PugComponents.Record
import PugComponents.Tree.Vocabulary

/-! Forwarding the attributes of a call to the one element at the top of a body. A body that spreads
attributes itself, anywhere, is left alone; so is an element that sets a declared key itself. -/

namespace PugComponents

namespace Node

def spreads? : Node → Option (List Spread)
  | .owner _ (.tag element) _ => some element.spreads
  | .owner _ (.interpolatedTag element) _ => some element.spreads
  | .owner _ (.mixin head) _ => some head.spreads
  | _ => none

def withSpreads (spreads : List Spread) : Node → Node
  | .owner pos (.tag element) block => .owner pos (.tag { element with spreads := spreads }) block
  | .owner pos (.interpolatedTag element) block =>
    .owner pos (.interpolatedTag { element with spreads := spreads }) block
  | .owner pos (.mixin head) block => .owner pos (.mixin { head with spreads := spreads }) block
  | n => n

/-- The node with a spread of the given variable, unless it has a spread already. -/
def forward (source : String) (n : Node) : Node :=
  match n.spreads? with
  | some [] => n.withSpreads [{ val := .str source, pos := n.pos }]
  | _ => n

def isSpreading (n : Node) : Bool :=
  match n.tag? with
  | some element => !element.spreads.isEmpty
  | none => false

def isRootElement (n : Node) : Bool := n.tag?.isSome && !n.isSlot

def setsAny (names : List String) (n : Node) : Bool :=
  (n.attrs?.getD []).any fun attr => names.any fun name => attr.name == .str name

end Node

/-- The variable that a root element spreads, unless it sets a declared key itself. -/
def forwardedFor? (usage : Option Usage) (root : Node) : Option String :=
  match usage with
  | none => some "attributes"
  | some usage => if root.setsAny usage.attrs then none else some "$attrs"

/-- The nodes of a body with the attributes forwarded to their root element. With several roots it is
only recorded that nothing is forwarded. -/
def applyFallthrough (component : String) (usage : Option Usage) (nodes : List Node) :
    Recorded (List Node) := do
  if ← (Node.block {} nodes).anyBelow Node.isSpreading then return nodes
  else match nodes.filter Node.isRootElement with
    | [] => return nodes
    | [root] =>
      match forwardedFor? usage root with
      | some source => return nodes.map fun n => if n.isRootElement then n.forward source else n
      | none => return nodes
    | _ =>
      Run.note (.severalRoots component)
      return nodes

/-- The nodes of a body for one call: with its attributes bound around them and forwarded. -/
def injectAttributes (component : String) (usage : Option Usage) (b : Bindings) (pos : Position)
    (nodes : List Node) : Recorded (List Node) := do
  let bound ← b.bindAround usage pos nodes
  applyFallthrough component usage bound

namespace Node

def inject (component : String) (usage : Option Usage) (b : Bindings) (pos : Position) :
    Node → Recorded Node
  | .seq blockPos head nodes => do
    let nodes ← injectAttributes component usage b pos nodes
    return .seq blockPos head nodes
  | _ => Run.fail (.fault .missingPart)

end Node

end PugComponents

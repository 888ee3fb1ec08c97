import PugComponents.Slots.Provided

/-! Filling the slots of a body. A slot in a block gives way to the content that is provided for it, or
else to the nodes below it; both are filled in turn. The slots below a call belong to the component
that is called and stay. -/

namespace PugComponents

/-- The nodes that take the place of the slots of a name, where content is provided for it. -/
abbrev Filling := String → Option (Except Failure (List Node))

namespace Node

mutual

def fillNodes (r : Reporter) (given : Filling) : List Node → Except Failure (List Node)
  | [] => .ok []
  | .owner pos head block :: ns => do
    if (Node.owner pos head block).isSlot then
      let name ← (Node.owner pos head block).slotName r
      let content ← match given name with
        | some content => content
        | none => fillDefault r given block
      let others ← fillNodes r given ns
      return content ++ others
    else
      let first ← fillNode r given (.owner pos head block)
      let others ← fillNodes r given ns
      return first :: others
  | n :: ns => do
    let first ← fillNode r given n
    let others ← fillNodes r given ns
    return first :: others

/-- A node with the slots in the blocks below it filled; a call stays as it is. -/
def fillNode (r : Reporter) (given : Filling) : Node → Except Failure Node
  | .leaf pos head => .ok (.leaf pos head)
  | .seq pos head nodes => do
    let nodes ← fillNodes r given nodes
    return .seq pos head nodes
  | .owner pos head block => do
    if ← (Node.owner pos head block).callCheck then return .owner pos head block
    else
      let filled ← fillOption r given block
      return .owner pos head filled
  | .fork pos head main alternate => do
    let main ← fillOption r given main
    let alternate ← fillOption r given alternate
    return .fork pos head main alternate
  | .inclusion pos file block => do
    let file ← fillFile r given file
    return .inclusion pos file block
  | .extension pos file => do
    let file ← fillFile r given file
    return .extension pos file
  | .rawInclusion pos file filters => .ok (.rawInclusion pos file filters)
  | .fileReference pos path fullPath ast => .ok (.fileReference pos path fullPath ast)

def fillOption (r : Reporter) (given : Filling) : Option Node → Except Failure (Option Node)
  | none => .ok none
  | some n => do
    let filled ← fillNode r given n
    return some filled

def fillFile (r : Reporter) (given : Filling) : Option Node → Except Failure (Option Node)
  | none => .ok none
  | some (.fileReference pos path fullPath ast) => do
    let ast ← fillOption r given ast
    return some (.fileReference pos path fullPath ast)
  | some _ => .error (.fault .missingPart)

def fillDefault (r : Reporter) (given : Filling) : Option Node → Except Failure (List Node)
  | none => .ok []
  | some (.seq _ _ nodes) => fillNodes r given nodes
  | some _ => .error (.fault .missingPart)

end

end Node

namespace Provided

/-- The provided content, filled in turn: so deep at most is content replaced inside content. -/
def filling (r : Reporter) (p : Provided) : Nat → Filling
  | 0, name => (p.lookup name).map fun _ => .error (.fault .tooDeep)
  | depth + 1, name => (p.lookup name).map fun content =>
    match content.nodes? with
    | some nodes => Node.fillNodes r (p.filling r depth) nodes
    | none => .error (.fault .missingPart)

def depthLimit : Nat := 200

def fill (r : Reporter) (p : Provided) (nodes : List Node) : Except Failure (List Node) :=
  Node.fillNodes r (p.filling r depthLimit) nodes

/-- A block with its slots filled, once all provided slots are known to be defined. -/
def resolve (r : Reporter) (defined : List String) (location : Location) (p : Provided) :
    Node → Except Failure Node
  | .seq pos head nodes => do
    p.check r defined location
    let nodes ← p.fill r nodes
    return .seq pos head nodes
  | _ => do
    p.check r defined location
    .error (.fault .missingPart)

end Provided

end PugComponents

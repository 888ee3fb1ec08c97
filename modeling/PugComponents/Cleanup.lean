import PugComponents.Failure
import PugComponents.Tree.Vocabulary

/-! What is left to do after expansion: the definitions are dropped, and the trees of included files
take the place of the nodes that refer to them. -/

namespace PugComponents

namespace Node

def rootRemoved : Failure := .diagnostic { cause := .traversal "The root node cannot be removed" none }

/-- A child after it was dropped: an empty block where there has to be one. -/
def afterRemoval (needed : Bool) (pos : Position) : Option Node :=
  if needed then some (emptyBlock pos) else none

mutual

def withoutDefinitions : Node → Except Failure (Option Node)
  | .leaf pos head => .ok (some (.leaf pos head))
  | .seq pos head nodes => do
    let nodes ← withoutDefinitionsAll nodes
    return some (.seq pos head nodes)
  | .owner pos head block => do
    if (Node.owner pos head block).isDefinition then return none
    else
      let block ← withoutDefinitionsOption head.needsBlock pos block
      return some (.owner pos head block)
  | .fork pos head main alternate => do
    let main ← withoutDefinitionsOption true pos main
    let alternate ← withoutDefinitionsOption false pos alternate
    return some (.fork pos head main alternate)
  | .inclusion pos file block => do
    let file ← withoutDefinitionsFile file
    return some (.inclusion pos file block)
  | .extension pos file => do
    let file ← withoutDefinitionsFile file
    return some (.extension pos file)
  | .rawInclusion pos file filters => .ok (some (.rawInclusion pos file filters))
  | .fileReference pos path fullPath ast => .ok (some (.fileReference pos path fullPath ast))

def withoutDefinitionsAll : List Node → Except Failure (List Node)
  | [] => .ok []
  | n :: ns => do
    let first ← withoutDefinitions n
    let others ← withoutDefinitionsAll ns
    return first.toList ++ others

def withoutDefinitionsOption (needed : Bool) (pos : Position) :
    Option Node → Except Failure (Option Node)
  | none => .ok none
  | some n => do
    match ← withoutDefinitions n with
    | some n => return some n
    | none => return afterRemoval needed pos

def withoutDefinitionsFile : Option Node → Except Failure (Option Node)
  | none => .ok none
  | some (.fileReference pos path fullPath ast) => do
    let ast ← withoutDefinitionsOption false pos ast
    return some (.fileReference pos path fullPath ast)
  | some _ => .error (.fault .missingPart)

end

def removeDefinitions (root : Node) : Except Failure Node := do
  match ← root.withoutDefinitions with
  | some n => return n
  | none => .error rootRemoved

/-- The nodes with those of plain blocks among them in place of the blocks. -/
def splice : List Node → List Node
  | [] => []
  | .seq _ .plain nodes :: ns => nodes ++ splice ns
  | n :: ns => n :: splice ns

mutual

/-- The tree with resolved files in place of the nodes that refer to them, and without plain blocks
directly inside blocks. A tree that already stands for a file is not replaced again. -/
def flattenNode (standsForFile : Bool) : Node → Except Failure Node
  | .leaf pos head => .ok (.leaf pos head)
  | .seq pos head nodes => do
    let nodes ← flattenAll nodes
    return .seq pos head (splice nodes)
  | .owner pos head block => do
    let block ← flattenOption block
    return .owner pos head block
  | .fork pos head main alternate => do
    let main ← flattenOption main
    let alternate ← flattenOption alternate
    return .fork pos head main alternate
  | .inclusion pos file block => do
    if standsForFile then
      let file ← flattenFile file
      return .inclusion pos file block
    else
      let found ← fileTree file
      return found.getD (.inclusion pos file block)
  | .extension pos file => do
    if standsForFile then
      let file ← flattenFile file
      return .extension pos file
    else
      let found ← fileTree file
      return found.getD (.extension pos file)
  | .rawInclusion pos file filters => .ok (.rawInclusion pos file filters)
  | .fileReference pos path fullPath ast => .ok (.fileReference pos path fullPath ast)

def flattenAll : List Node → Except Failure (List Node)
  | [] => .ok []
  | n :: ns => do
    let first ← flattenNode false n
    let others ← flattenAll ns
    return first :: others

def flattenOption : Option Node → Except Failure (Option Node)
  | none => .ok none
  | some n => do
    let flat ← flattenNode false n
    return some flat

def fileTree : Option Node → Except Failure (Option Node)
  | some (.fileReference _ _ _ none) => .ok none
  | some (.fileReference _ _ _ (some ast)) => do
    let flat ← flattenNode true ast
    return some flat
  | _ => .error (.fault .missingPart)

def flattenFile : Option Node → Except Failure (Option Node)
  | none => .ok none
  | some (.fileReference pos path fullPath ast) => do
    let ast ← flattenOption ast
    return some (.fileReference pos path fullPath ast)
  | some _ => .error (.fault .missingPart)

end

def flatten (root : Node) : Except Failure Node := root.flattenNode false

end Node

end PugComponents

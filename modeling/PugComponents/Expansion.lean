import PugComponents.Attributes.Fallthrough
import PugComponents.Registry
import PugComponents.Slots.Filling

/-! Expanding calls. A call in a block gives way to the body of its component, with the attributes of
the call bound around it, its slots filled, and the calls inside it expanded in turn. What stands
below a call is expanded first, for the component that contains the call. -/

namespace PugComponents

namespace Node

def replaceCalls (call : Node → Recorded (List Node)) : List Node → Recorded (List Node)
  | [] => return []
  | n :: ns => do
    if ← n.callCheck then
      let found ← call n
      let others ← replaceCalls call ns
      return found ++ others
    else
      let others ← replaceCalls call ns
      return n :: others

mutual

/-- The tree with every call that stands in a block replaced, innermost first. -/
def expandNode (call : Node → Recorded (List Node)) : Node → Recorded Node
  | .leaf pos head => return .leaf pos head
  | .seq pos head nodes => do
    let visited ← expandAll call nodes
    let nodes ← replaceCalls call visited
    return .seq pos head nodes
  | .owner pos head block => do
    let block ← expandOption call block
    return .owner pos head block
  | .fork pos head main alternate => do
    let main ← expandOption call main
    let alternate ← expandOption call alternate
    return .fork pos head main alternate
  | .inclusion pos file block => do
    let file ← expandFile call file
    return .inclusion pos file block
  | .extension pos file => do
    let file ← expandFile call file
    return .extension pos file
  | .rawInclusion pos file filters => return .rawInclusion pos file filters
  | .fileReference pos path fullPath ast => return .fileReference pos path fullPath ast

def expandAll (call : Node → Recorded (List Node)) : List Node → Recorded (List Node)
  | [] => return []
  | n :: ns => do
    let first ← expandNode call n
    let others ← expandAll call ns
    return first :: others

def expandOption (call : Node → Recorded (List Node)) : Option Node → Recorded (Option Node)
  | none => return none
  | some n => do
    let expanded ← expandNode call n
    return some expanded

def expandFile (call : Node → Recorded (List Node)) : Option Node → Recorded (Option Node)
  | none => return none
  | some (.fileReference pos path fullPath ast) => do
    let ast ← expandOption call ast
    return some (.fileReference pos path fullPath ast)
  | some _ => Run.fail (.fault .missingPart)

end

def expandBlock (call : Node → Recorded (List Node)) (nodes : List Node) : Recorded (List Node) := do
  let visited ← expandAll call nodes
  replaceCalls call visited

def targetName (n : Node) : Except Failure String :=
  match n with
  | .owner _ (.tag { label := .str name, .. }) _ => .ok name
  | .owner _ (.mixin { name := .str name, .. }) _ => .ok name
  | .owner _ (.filter (.str name) _) _ => .ok name
  | .seq _ (.named (.str name) _) _ => .ok name
  | _ => .error (.fault .missingPart)

end Node

/-- The components and options that an expansion works with. -/
structure Expansion where
  registry : Registry
  config : Config

namespace Expansion

/-- The component that a call is for. It must not be one that is being expanded around the call. -/
def target (x : Expansion) (stack : List String) (call : Node) : Except Failure Definition := do
  let r := x.config.reporter
  let name ← call.targetName
  if stack.contains name then
    .error (.diagnostic (r.report (.recursiveCall (stack.dropWhile (· != name) ++ [name]))
      (some call.location)))
  else match x.registry.get? name with
    | none =>
      .error (.diagnostic (r.report (.componentNotFound name x.registry.names) (some call.location)))
    | some d => .ok d

/-- The body of a component for one call: attributes bound, slots filled, calls still inside. -/
def instantiate (x : Expansion) (d : Definition) (call : Node) : Recorded (List Node) := do
  let r := x.config.reporter
  let provided ← Provided.ofCall r call
  let bindings ← match call.attrs? with
    | some attrs => Bindings.ofAttributes attrs
    | none => Except.error (Failure.fault .missingPart)
  let nodes ← injectAttributes d.name d.usage bindings call.pos d.nodes
  provided.check r d.slotNames call.location
  provided.fill r nodes

def announce (x : Expansion) (stack : List String) (d : Definition) (call : Node) : Recorded Unit :=
  if x.config.debug.isTruthy then
    Run.note (.expanding d.name (call.location.withFilename x.config.filename) stack.length)
  else return ()

/-- The nodes that take the place of a call. The stack has the components around it, outermost first,
and so deep at most do calls nest. -/
def expandCall (x : Expansion) : Nat → List String → Node → Recorded (List Node)
  | depth, stack, call => do
    let d ← x.target stack call
    x.announce stack d call
    let nodes ← x.instantiate d call
    match depth with
    | 0 => Run.fail (.fault .tooDeep)
    | depth + 1 => Node.expandBlock (x.expandCall depth (stack ++ [d.name])) nodes

def depthLimit : Nat := 200

def call (x : Expansion) (stack : List String) (n : Node) : Recorded (List Node) :=
  x.expandCall depthLimit stack n

def tree (x : Expansion) (stack : List String) (n : Node) : Recorded Node :=
  n.expandNode (x.call stack)

end Expansion

end PugComponents

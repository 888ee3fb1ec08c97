import PugComponents.Cleanup
import PugComponents.Tree.Walk

/-! Visiting a tree with hooks. A node is entered, then its children are visited in order, then it is
left. A hook may keep the node, replace it or drop it. A replacement on entering is not entered again,
but its children are visited and it is left. Hooks run in a monad of their own: they may keep records,
remember what they have seen, and fail. -/

namespace PugComponents

inductive Verdict where
  | keep
  | replace (n : Node)
  | remove

abbrev Hook (m : Type → Type) := Node → Option Node → m Verdict

structure Hooks (m : Type → Type) where
  enter : Option (Hook m) := none
  leave : Option (Hook m) := none

abbrev Visitor (m : Type → Type) := Kind → Hooks m

namespace Visitor

variable {m : Type → Type} [Monad m] [MonadExceptOf Failure m]

def onEnter (v : Visitor m) (parent : Option Node) (n : Node) : m Verdict :=
  match (v n.kind).enter with
  | some hook => hook n parent
  | none => return .keep

def onLeave (v : Visitor m) (parent : Option Node) (n : Node) : m Verdict :=
  match (v n.kind).leave with
  | some hook => hook n parent
  | none => return .keep

def left (v : Visitor m) (parent : Option Node) (n : Node) : m (Option Node) := do
  match ← v.onLeave parent n with
  | .keep => return some n
  | .replace m => return some m
  | .remove => return none

def entered (v : Visitor m) (again : Option Node → Node → m (Option Node)) (skip : Bool)
    (parent : Option Node) (n : Node) (onward : m (Option Node)) : m (Option Node) :=
  if skip then onward
  else do
    match ← v.onEnter parent n with
    | .keep => onward
    | .replace m => again parent m
    | .remove => return none

mutual

/-- The node after a visit, or nothing if it was dropped. With `skip` it is not entered. A replacement
on entering is handed to `again`. -/
def visit (v : Visitor m) (again : Option Node → Node → m (Option Node)) (skip : Bool)
    (parent : Option Node) : Node → m (Option Node)
  | .leaf pos head => v.entered again skip parent (.leaf pos head) (v.left parent (.leaf pos head))
  | .seq pos head nodes => v.entered again skip parent (.seq pos head nodes) do
    let nodes ← visitAll v again (.seq pos head nodes) nodes
    v.left parent (.seq pos head nodes)
  | .owner pos head block => v.entered again skip parent (.owner pos head block) do
    let block ← visitOption v again (.owner pos head block) head.needsBlock block
    v.left parent (.owner pos head block)
  | .fork pos head main alternate => v.entered again skip parent (.fork pos head main alternate) do
    let main' ← visitOption v again (.fork pos head main alternate) true main
    let alternate' ← visitOption v again (.fork pos head main alternate) false alternate
    v.left parent (.fork pos head main' alternate')
  | .inclusion pos file block => v.entered again skip parent (.inclusion pos file block) do
    let file ← visitFile v again (.inclusion pos file block) file
    v.left parent (.inclusion pos file block)
  | .extension pos file => v.entered again skip parent (.extension pos file) do
    let file ← visitFile v again (.extension pos file) file
    v.left parent (.extension pos file)
  | .rawInclusion pos file filters =>
    v.entered again skip parent (.rawInclusion pos file filters)
      (v.left parent (.rawInclusion pos file filters))
  | .fileReference pos path fullPath ast =>
    v.entered again skip parent (.fileReference pos path fullPath ast)
      (v.left parent (.fileReference pos path fullPath ast))
termination_by structural n => n

def visitAll (v : Visitor m) (again : Option Node → Node → m (Option Node)) (parent : Node) :
    List Node → m (List Node)
  | [] => return []
  | n :: ns => do
    let first ← visit v again false (some parent) n
    let others ← visitAll v again parent ns
    return first.toList ++ others
termination_by structural ns => ns

/-- An optional child; where one is needed an empty block takes the place of a dropped one. -/
def visitOption (v : Visitor m) (again : Option Node → Node → m (Option Node)) (parent : Node)
    (needed : Bool) : Option Node → m (Option Node)
  | none => return none
  | some n => do
    match ← visit v again false (some parent) n with
    | some n => return some n
    | none => return Node.afterRemoval needed parent.pos
termination_by structural o => o

def visitFile (v : Visitor m) (again : Option Node → Node → m (Option Node)) (parent : Node) :
    Option Node → m (Option Node)
  | none => return none
  | some (.fileReference pos path fullPath ast) => do
    let ast ← visitOption v again parent false ast
    return some (.fileReference pos path fullPath ast)
  | some _ => throw (.fault .missingPart)
termination_by structural file => file

end

/-- Visits a replacement. So deep at most are replacements made inside replacements. -/
def revisit (v : Visitor m) : Nat → Option Node → Node → m (Option Node)
  | 0, _, _ => throw (.fault .tooDeep)
  | depth + 1, parent, n => v.visit (v.revisit depth) true parent n

def depthLimit : Nat := 200

/-- The tree after a visit, with replacements inside replacements up to a given depth. -/
def traverseWithin (v : Visitor m) (depth : Nat) (root : Node) : m Node := do
  match ← v.visit (v.revisit depth) false none root with
  | some n => return n
  | none => throw Node.rootRemoved

def traverse (v : Visitor m) (root : Node) : m Node := v.traverseWithin depthLimit root

end Visitor

end PugComponents

import PugComponents.Traversal
import PugComponents.Tree.Decode
import PugComponents.Tree.Encode

/-! Visitors that are given by rules. A rule names a moment and a kind of nodes, may ask for values of
fields, and says what to do; the first rule that fits decides. Every call of a hook is recorded. -/

namespace PugComponents

inductive Phase where
  | enter | leave
deriving DecidableEq

inductive Action where
  | keep
  | remove
  /-- The replacement is read when the rule fits. -/
  | replace (tree : Json)

structure Rule where
  phase : Phase
  kind : String
  action : Action
  /-- Values that fields of the node have to have. -/
  conditions : List (String × Json) := []

/-- A call of a hook: the labels of the node and of its parent. -/
structure HookCall where
  phase : Phase
  label : String
  parent : Option String

namespace Node

def field? (n : Node) (name : String) : Option Json := n.toJson.get? name

/-- The fields that name a node, in order of preference. -/
def labelFields : List String := ["name", "val", "test", "expr", "obj"]

def label (n : Node) : String :=
  match labelFields.findSome? n.field? with
  | some v => n.kind.name ++ ":" ++ v.display
  | none => n.kind.name

end Node

namespace Rule

def fits (rule : Rule) (phase : Phase) (n : Node) : Bool :=
  rule.phase == phase && rule.kind == n.kind.name && rule.conditions.all fun c =>
    match n.field? c.1 with
    | some v => v == c.2
    | none => false

def verdict (rule : Rule) : Except Failure Verdict :=
  match rule.action with
  | .keep => .ok .keep
  | .remove => .ok .remove
  | .replace tree => do
    let n ← Node.ofJson tree
    return .replace n

/-- The hook that records its call and follows the first rule that fits. -/
def hook (rules : List Rule) (phase : Phase) : Hook (Run HookCall) := fun n parent => do
  Run.note { phase := phase, label := n.label, parent := parent.map Node.label }
  match rules.find? fun rule => rule.fits phase n with
  | some rule => rule.verdict
  | none => return .keep

def visitor (rules : List Rule) (kinds : List String) (onEnter onLeave : Bool) : Visitor (Run HookCall) :=
  fun kind =>
    if kinds.contains kind.name then
      { enter := if onEnter then some (hook rules .enter) else none
        leave := if onLeave then some (hook rules .leave) else none }
    else {}

end Rule

end PugComponents

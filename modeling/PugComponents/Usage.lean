import PugComponents.Script.Fragment
import PugComponents.Tree.Survey

/-! The keys that a component body takes out of `$props` and `$attrs`. A body that takes none works
with one object of all attributes instead. -/

namespace PugComponents

/-- The declared keys, without repetition and in the order in which they are declared. -/
structure Usage where
  props : List String := []
  attrs : List String := []
deriving DecidableEq

namespace Usage

def contains (u : Usage) (key : String) : Bool := u.props.contains key || u.attrs.contains key

def keysFrom (isProps : Bool) (ds : List Script.Destructuring) : List String :=
  ((ds.filter fun d => (d.source == "$props") == isProps).flatMap (·.keys)).eraseDups

def ofDestructurings (ds : List Script.Destructuring) : Option Usage :=
  let usage : Usage := { props := keysFrom true ds, attrs := keysFrom false ds }
  if usage.props.isEmpty && usage.attrs.isEmpty then none else some usage

end Usage

namespace Script.Fragment

def ofStatements : Json → Except Failure Script.Fragment
  | .str source => .ok (analyze source false)
  | .arr _ => .error (.fault .wrongKind)
  | .obj _ => .error (.fault .wrongKind)
  | _ => .error (.fault .missingPart)

end Script.Fragment

namespace Node

def codeDestructurings : Node → Except Failure (List Script.Destructuring)
  | .owner _ (.code val ..) _ => do
    let fragment ← Script.Fragment.ofStatements val
    return fragment.destructurings
  | _ => .ok []

/-- The keys that the code below a node declares; none if there are no keys. -/
def usage (body : Node) : Except Failure (Option Usage) := do
  let ds ← body.survey codeDestructurings
  return Usage.ofDestructurings ds

end Node

end PugComponents

import PugComponents.Slots.Name

/-! The slots that a component body offers, in visiting order. Each carries a label of the control flow
around it; slots below a call belong to the component that is called. -/

namespace PugComponents

/-- A slot in a body with the labels of the control flow around it, outermost first. -/
structure Placeholder where
  slot : Node
  path : List String

/-- A step of the visit: a placeholder, or a value that ends the visit. -/
abbrev Visit := Except Fault Placeholder

namespace Placeholder

def label (p : Placeholder) : String := Text.join ">" p.path

end Placeholder

/-- The label of a branch of a conditional; the first test of a chain has the index 0. -/
def branchLabel (index : Nat) : String :=
  if index = 0 then "if" else "else-if:" ++ toString index

namespace Node

def ownerLabels : Owner → List String
  | .caseOf _ => ["case"]
  | .whenArm expr _ => ["when:" ++ expr.display]
  | .whileLoop _ => ["while"]
  | _ => []

mutual

def placeholders (path : List String) : Node → List Visit
  | .leaf .. => []
  | .seq _ _ nodes => placeholdersAll path nodes
  | .owner pos head block =>
    match (Node.owner pos head block).labelFault? with
    | some f => [.error f]
    | none =>
      if (Node.owner pos head block).isCall then []
      else if (Node.owner pos head block).isSlot then
        .ok ⟨.owner pos head block, path⟩ :: placeholdersOption path block
      else placeholdersOption (path ++ ownerLabels head) block
  | .fork _ (.each ..) main alternate =>
    placeholdersOption (path ++ ["each"]) main ++ placeholdersOption (path ++ ["each-else"]) alternate
  | .fork _ (.conditional _) main alternate =>
    placeholdersOption (path ++ [branchLabel 0]) main ++ placeholdersElse path 0 alternate
  | .inclusion _ file _ => placeholdersFile path file
  | .extension _ file => placeholdersFile path file
  | .rawInclusion .. => []
  | .fileReference .. => []

def placeholdersAll (path : List String) : List Node → List Visit
  | [] => []
  | n :: ns => placeholders path n ++ placeholdersAll path ns

def placeholdersOption (path : List String) : Option Node → List Visit
  | none => []
  | some n => placeholders path n

/-- The alternative of a conditional: another test of the same chain, or its last branch. -/
def placeholdersElse (path : List String) (index : Nat) : Option Node → List Visit
  | none => []
  | some (.fork _ (.conditional _) main alternate) =>
    placeholdersOption (path ++ [branchLabel (index + 1)]) main ++
      placeholdersElse path (index + 1) alternate
  | some n => placeholders (path ++ ["else"]) n

def placeholdersFile (path : List String) : Option Node → List Visit
  | none => []
  | some (.fileReference _ _ _ ast) => placeholdersOption path ast
  | some _ => [.error .missingPart]

end

end Node

end PugComponents

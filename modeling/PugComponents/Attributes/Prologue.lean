import PugComponents.Attributes.Bindings

/-! The statements that give a component body the attributes of a call. A body with declared keys gets
the objects `$props` and `$attrs` in a scope of its own; the variables of the caller are handed in as
parameters, so that the body may declare names of its own like them. Any other body gets one object
`attributes`. -/

namespace PugComponents

def statementNode (pos : Position) (source : String) : Node :=
  .owner pos (.code (.str source) (.bool false) (.bool false) (.bool false)) none

/-- The parameter under which a variable of the caller is handed in. -/
def parameterFor (variableName : String) : String := "__pug_arg_" ++ variableName

def quotedKey (key : String) : String := String.ofList (Json.quoted key)

namespace Bindings

/-- The value in an object literal: a captured variable by its parameter, all else as it was given. -/
def emitted (captured : List String) (source : String) : String :=
  if captured.contains (Text.trim source) then parameterFor (Text.trim source) else source

def objectLiteral (captured : List String) (b : Bindings) : Except Failure String := do
  let pairs ← b.mapM fun p => do
    let source ← sourceOf p.2
    return quotedKey p.1 ++ ": " ++ emitted captured source
  return "\x7b" ++ Text.join ", " pairs ++ "\x7d"

def objectStatement (name : String) (captured : List String) (pos : Position) (b : Bindings) :
    Except Failure Node := do
  let literal ← b.objectLiteral captured
  return statementNode pos ("const " ++ name ++ " = " ++ literal)

/-- A key that needs no quotes. One line end after it does not count. -/
def isBareKey (key : String) : Bool :=
  isPlainName key.toList ||
    (key.toList.getLast? == some '\n' && isPlainName key.toList.dropLast)

/-- `var attributes = {...}`; keys that are no names are quoted. -/
def legacyStatement (pos : Position) (b : Bindings) : Node :=
  let pairs := b.map fun p =>
    (if isBareKey p.1 then p.1 else quotedKey p.1) ++ ": " ++ p.2.display
  statementNode pos ("var attributes = \x7b" ++ Text.join ", " pairs ++ "\x7d")

/-- The opening and the closing statement of a scope that hands in the captured variables. -/
def scopeStatements (captured : List String) (pos : Position) : Node × Node :=
  if captured.isEmpty then (statementNode pos "\x7b", statementNode pos "\x7d")
  else
    (statementNode pos (";((" ++ Text.join ", " (captured.map parameterFor) ++ ") => \x7b"),
      statementNode pos ("\x7d)(" ++ Text.join ", " captured ++ ")"))

def bindAround (b : Bindings) (usage : Option Usage) (pos : Position) (nodes : List Node) :
    Except Failure (List Node) :=
  match usage with
  | none => .ok (b.legacyStatement pos :: nodes)
  | some usage => do
    let captured ← captured (b.props usage ++ b.attrs usage)
    let first ← (b.props usage).objectStatement "$props" captured pos
    let second ← (b.attrs usage).objectStatement "$attrs" captured pos
    let (opening, closing) := scopeStatements captured pos
    return opening :: first :: second :: nodes ++ [closing]

end Bindings

end PugComponents

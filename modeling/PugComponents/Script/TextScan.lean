import PugComponents.Script.Names
import PugComponents.Script.Search
import PugComponents.Text.Blank
import PugComponents.Text.Word

/-! The names in a piece of script that is no script by itself, such as the head of a loop whose body
stands in other pieces. Strings, comments, property names and object keys are passed over; what the
heads of declarations, functions, arrow functions and `catch` clauses bind is found by their shape. -/

namespace PugComponents.Script.TextScan

/-- The rest of a literal from behind its opening quote, up to and with the closing one. An escaped
line end is admitted only `acrossLines`. -/
def closeQuote (acrossLines : Bool) (quote : Char) : List Char → Option (List Char × List Char)
  | [] => none
  | '\\' :: c :: cs =>
    if c = '\n' ∧ !acrossLines then none
    else (closeQuote acrossLines quote cs).map fun (text, left) => ('\\' :: c :: text, left)
  | c :: cs =>
    if c = quote then some ([c], cs)
    else if c = '\\' then none
    else (closeQuote acrossLines quote cs).map fun (text, left) => (c :: text, left)

def isQuote (c : Char) : Bool := c == '"' || c == '\x27' || c == '\x60'

def literal (acrossLines : Bool) : Reader (List Char) := do
  let quote ← takeOne isQuote
  let text ← fun cs => closeQuote acrossLines quote cs
  return quote :: text

def closeComment : List Char → Option (List Char)
  | [] => none
  | '*' :: '/' :: cs => some cs
  | _ :: cs => closeComment cs

def comment : Reader Unit := do
  exactly "/"
  if ← takes (exactly "/") then
    let _ ← takeAll (· != '\n')
  else
    exactly "*"
    fun cs => (closeComment cs).map fun left => ((), left)

/-- The text with a blank for every comment outside strings. -/
def withoutComments (cs : List Char) : List Char :=
  replaceAll (fun _ => do
    match ← perhaps (literal true) with
    | some text => return text
    | none =>
      comment
      return [' ']) cs

def withoutStrings (cs : List Char) : List Char :=
  replaceAll (fun _ => do
    let _ ← literal false
    return ['"', '"']) cs

def isInitial (c : Char) : Bool := c.isAlpha || c == '_' || c == '$'

def isFurther (c : Char) : Bool := Text.isWord c || c == '$'

def name : Reader String := do
  let first ← takeOne isInitial
  let more ← takeAll isFurther
  return String.ofList (first :: more)

def blanks : Reader (List Char) := takeAll Text.isBlank

def wordStart (before : Option Char) : Reader Unit :=
  guard !(before.map Text.isWord).getD false

/-- Succeeds where a name may start that is no property. -/
def nameStart (before : Option Char) : Reader Unit :=
  guard !(before.map fun c => isFurther c || c == '.').getD false

def declarationKeyword (before : Option Char) : Reader Unit := do
  wordStart before
  if ← takes (exactly "const") then return ()
  else if ← takes (exactly "let") then return ()
  else exactly "var"

def declaration : Finder String := fun before => do
  declarationKeyword before
  let _ ← takeOne Text.isBlank
  let _ ← blanks
  name

/-- What stands between parentheses without further ones inside. -/
def parameters : Reader (List Char) := do
  exactly "("
  let found ← takeAll fun c => c != '(' && c != ')'
  exactly ")"
  return found

def arrow : Reader Unit := do
  let _ ← blanks
  exactly "=>"

def function : Finder (Option String × List Char) := fun before => do
  wordStart before
  exactly "function"
  notNext Text.isWord
  let _ ← blanks
  let _ ← takes (exactly "*")
  let _ ← blanks
  let label ← perhaps name
  let _ ← blanks
  let found ← parameters
  return (label, found)

def arrowParameters : Finder (List Char) := fun _ => do
  let found ← parameters
  arrow
  return found

def arrowParameter : Finder String := fun before => do
  nameStart before
  let found ← name
  arrow
  return found

def handler : Finder (List Char) := fun before => do
  wordStart before
  exactly "catch"
  let _ ← blanks
  parameters

/-- An object key and the sign before it, without the key. -/
def objectKey : Finder (List Char) := fun _ => do
  let opener ← takeOne fun c => c == '\x7b' || c == ','
  let before ← blanks
  let _ ← name
  let after ← blanks
  exactly ":"
  notNext (· == ':')
  return opener :: before ++ after ++ [':']

def identifier : Finder String := fun before => do
  nameStart before
  name

def keywords : List String :=
  ["await", "break", "case", "catch", "class", "const", "continue", "debugger", "default", "delete",
    "do", "else", "export", "extends", "false", "finally", "for", "function", "if", "import", "in",
    "instanceof", "let", "new", "null", "of", "return", "static", "super", "switch", "this", "throw",
    "true", "try", "typeof", "var", "void", "while", "with", "yield", "async"]

/-- The name that one parameter binds: what is left of its target without default value, key and the
brackets around it. -/
def parameterName? (entry : List Char) : Option String :=
  let target := Text.beforeFirst '=' entry
  let target := (Text.afterFirst? ':' target).getD target
  let target := Text.trimWhile
    (fun c => [' ', '\t', '\n', '.', '\x7b', '\x7d', '[', ']'].contains c) target
  match name target with
  | some (found, []) => some found
  | _ => none

def parameterNames (cs : List Char) : List String :=
  (Text.splitAll ',' cs).filterMap parameterName?

def entryNames (entry : List Char) : List String × List String :=
  let entry := Text.trimChars entry
  if entry.isEmpty then ([], [])
  else match Text.dropStart? ['.', '.', '.'] entry with
    | some target => ([], [String.ofList (Text.trimChars target)])
    | none =>
      let target := Text.beforeFirst '=' entry
      let whole := String.ofList (Text.trimChars target)
      match Text.afterFirst? ':' target with
      | some binding =>
        ([stripQuotes (String.ofList (Text.trimChars (Text.beforeFirst ':' target)))],
          [String.ofList (Text.trimChars binding)])
      | none => ([whole], [whole])

def destructuring : Finder Destructuring := fun before => do
  declarationKeyword before
  let _ ← blanks
  exactly "\x7b"
  let body ← takeAll (· != '\x7d')
  exactly "\x7d"
  let _ ← blanks
  exactly "="
  let _ ← blanks
  let source ← if ← takes (exactly "$props") then pure "$props" else do
    exactly "$attrs"
    pure "$attrs"
  notNext isFurther
  let entries := (Text.splitAll ',' body).map entryNames
  return ⟨source, entries.flatMap Prod.fst, entries.flatMap Prod.snd⟩

/-- The names in a text that was found to be no script. -/
def names (source : String) : Names :=
  let uncommented := withoutComments source.toList
  let destructurings := findAll destructuring uncommented
  let bare := withoutStrings uncommented
  let functions := findAll function bare
  { declared :=
      findAll declaration bare ++ destructurings.flatMap (·.bindings) ++
        functions.flatMap (fun f => f.1.toList ++ parameterNames f.2) ++
        (findAll arrowParameters bare).flatMap parameterNames ++
        (findAll handler bare).flatMap parameterNames ++ findAll arrowParameter bare
    referenced := (findAll identifier (replaceAll objectKey bare)).filter fun n => !keywords.contains n
    destructurings := destructurings }

end PugComponents.Script.TextScan

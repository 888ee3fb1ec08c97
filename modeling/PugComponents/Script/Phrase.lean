import PugComponents.Script.Kind

/-! The phrases of a script as far as names go: which identifiers stand for variables, which are bound by
which pattern, and where a function, a loop or a declaration opens. -/

namespace PugComponents.Script

inductive Phrase where
  /-- A part that was left out. -/
  | absent
  /-- An identifier that stands for a variable. -/
  | name (text : String)
  /-- An object member that is named after the variable it reads. -/
  | shorthand (text : String)
  /-- An entry of an object pattern that is named after its target. -/
  | bare (text : String)
  /-- A literal, a property name, a label or a word of the language. -/
  | atom (text : String)
  /-- A construct whose parts are looked at one after the other. -/
  | form (kind : Kind) (parts : List Phrase)
  /-- `target = value` in a variable declaration. -/
  | declarator (target value : Phrase)
  /-- A function, an arrow function or a method. -/
  | function (name : Phrase) (params : List Phrase) (body : Phrase)
  | classDeclaration (name : String) (heritage members : List Phrase)
  /-- A `catch` clause. -/
  | handler (param body : Phrase)
  /-- A loop over the keys or the elements of the subject. -/
  | iteration (declares : Bool) (target subject body : Phrase)
  | objectPattern (entries : List Phrase)
  | arrayPattern (items : List Phrase)
  /-- `key: value` in an object pattern. -/
  | pair (key value : Phrase)
  /-- `target = value` in a pattern. -/
  | defaulted (target value : Phrase)
  | rest (target : Phrase)
  /-- A parameter with its default value and its type. -/
  | parameter (target value ascription : Phrase)

namespace Phrase

instance : Inhabited Phrase := ⟨.absent⟩

def parts : Phrase → List Phrase
  | .form _ parts => parts
  | _ => []

def spelling : Phrase → String
  | .name text | .shorthand text | .bare text | .atom text => text
  | _ => ""

end Phrase

end PugComponents.Script

import PugComponents.Script.Phrase
import PugComponents.Tree.Vocabulary

/-! The names that a phrase binds and reads, and the patterns by which it takes `$props` and `$attrs`
apart. A phrase is looked at in one of two roles: as something that is evaluated, or as the target of
a binding. -/

namespace PugComponents.Script

/-- `const { key: binding } = source`, with the keys and the bindings in order. -/
structure Destructuring where
  source : String
  keys : List String
  bindings : List String
deriving DecidableEq

structure Names where
  declared : List String := []
  referenced : List String := []
  destructurings : List Destructuring := []

namespace Names

def append (a b : Names) : Names :=
  ⟨a.declared ++ b.declared, a.referenced ++ b.referenced, a.destructurings ++ b.destructurings⟩

instance : Append Names := ⟨append⟩

def declares (name : String) : Names := { declared := [name] }

def reads (name : String) : Names := { referenced := [name] }

@[simp] theorem declared_append (a b : Names) : (a ++ b).declared = a.declared ++ b.declared := rfl

@[simp] theorem referenced_append (a b : Names) :
    (a ++ b).referenced = a.referenced ++ b.referenced := rfl

@[simp] theorem destructurings_append (a b : Names) :
    (a ++ b).destructurings = a.destructurings ++ b.destructurings := rfl

end Names

/-- Whether a phrase is evaluated or is the target of a binding. -/
inductive Role where
  | evaluated | bound
deriving DecidableEq

namespace Phrase

def isComputed : Phrase → Bool
  | .form .computedPropertyName _ => true
  | _ => false

def keyName? : Phrase → Option String
  | .atom text => some (stripQuotes text)
  | _ => none

def entryNames : Phrase → List String × List String
  | .bare text => ([text], [text])
  | .defaulted (.bare text) _ => ([text], [text])
  | .pair key (.name text) => (key.keyName?.toList, [text])
  | .pair key (.defaulted (.name text) _) => (key.keyName?.toList, [text])
  | .pair key _ => (key.keyName?.toList, [])
  | .rest (.name text) => ([], [text])
  | _ => ([], [])

/-- What a declaration takes out of `$props` or `$attrs`: its target has to be an object pattern and
its value one of the two names alone. -/
def destructuring? : Phrase → Phrase → Option Destructuring
  | .objectPattern entries, .name source =>
    if source = "$props" ∨ source = "$attrs" then
      some ⟨source, entries.flatMap (entryNames · |>.1), entries.flatMap (entryNames · |>.2)⟩
    else none
  | _, _ => none

mutual

/-- The names in a phrase. Of a method only the parameters and the body are looked at, of a class
declaration only the members. -/
def names (role : Role) : Phrase → Names
  | .absent => {}
  | .name text => if role = .bound then .declares text else .reads text
  | .shorthand text => .reads text
  | .bare text => if role = .bound then .declares text else {}
  | .atom _ => {}
  | .form _ parts => namesAll .evaluated parts
  | .declarator target value =>
    names .bound target ++ names .evaluated value ++
      { destructurings := (destructuring? target value).toList }
  | .function label params body =>
    (match label with
      | .name text => .declares text
      | _ => {}) ++ namesAll .bound params ++ names .evaluated body
  | .classDeclaration label _ members => .declares label ++ namesAll .evaluated members
  | .handler param body => names .bound param ++ names .evaluated body
  | .iteration declares target subject body =>
    names (if declares then .bound else .evaluated) target ++ names .evaluated subject ++
      names .evaluated body
  | .objectPattern entries => namesAll role entries
  | .arrayPattern items => namesAll role items
  | .pair key value =>
    (if role = .evaluated ∨ key.isComputed then names .evaluated key else {}) ++ names role value
  | .defaulted target value => names role target ++ names .evaluated value
  | .rest target => names role target
  | .parameter target value ascription =>
    names role target ++ names .evaluated value ++
      (if role = .evaluated then names .evaluated ascription else {})

def namesAll (role : Role) : List Phrase → Names
  | [] => {}
  | p :: ps => names role p ++ namesAll role ps

end

end Phrase

end PugComponents.Script

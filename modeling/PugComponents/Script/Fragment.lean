import PugComponents.NameSet
import PugComponents.Script.Names
import PugComponents.Script.Parse
import PugComponents.Script.TextScan

/-! A piece of script in a template: statements, or a single expression. If it is no script by itself
its text is scanned instead. -/

namespace PugComponents.Script

/-- The names in a piece of script, as sets, and whether it was a script by itself. -/
structure Fragment where
  declared : List String
  referenced : List String
  destructurings : List Destructuring
  parsed : Bool

namespace Fragment

def ofNames (parsed : Bool) (names : Names) : Fragment :=
  { declared := NameSet.ofList names.declared, referenced := NameSet.ofList names.referenced
    destructurings := names.destructurings, parsed := parsed }

/-- An expression is read between parentheses. -/
def scriptText (isExpression : Bool) (source : String) : String :=
  if isExpression then "(" ++ source ++ ")" else source

/-- The names in the script that a text is, or else those in the text. -/
def ofScript (source : String) : Option Phrase → Fragment
  | some phrase => ofNames true (phrase.names .evaluated)
  | none => ofNames false (TextScan.names source)

def analyze (source : String) (isExpression : Bool) : Fragment :=
  ofScript source (parse? (scriptText isExpression source))

@[simp] theorem mem_declared_ofNames {a : String} {parsed : Bool} {names : Names} :
    a ∈ (ofNames parsed names).declared ↔ a ∈ names.declared := by simp [ofNames]

@[simp] theorem mem_referenced_ofNames {a : String} {parsed : Bool} {names : Names} :
    a ∈ (ofNames parsed names).referenced ↔ a ∈ names.referenced := by simp [ofNames]

end Fragment

end PugComponents.Script

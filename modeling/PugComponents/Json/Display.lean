import PugComponents.Json.Write
import PugComponents.Text.Printable
import PugComponents.Text.Split

/-! The text by which a message shows a value: a string as it is, everything else as a literal with
`None`, `True`, `False` and single-quoted strings. -/

namespace PugComponents

namespace Json

def hexText (width n : Nat) : List Char :=
  let ds := Nat.toDigits 16 n
  List.replicate (width - ds.length) '0' ++ ds

def literalChar (quote c : Char) : List Char :=
  if c = quote ∨ c = '\\' then ['\\', c]
  else if c = '\n' then ['\\', 'n']
  else if c = '\r' then ['\\', 'r']
  else if c = '\t' then ['\\', 't']
  else if Text.isPrintable c then [c]
  else if c.toNat < 0x100 then '\\' :: 'x' :: hexText 2 c.toNat
  else if c.toNat < 0x10000 then '\\' :: 'u' :: hexText 4 c.toNat
  else '\\' :: 'U' :: hexText 8 c.toNat

/-- Single quotes, unless the text has a single quote and no double one. -/
def literalText (s : String) : String :=
  let cs := s.toList
  let quote := if cs.contains '\x27' && !cs.contains '"' then '"' else '\x27'
  String.ofList (quote :: cs.flatMap (literalChar quote) ++ [quote])

def numeralLiteral : Numeral → String
  | .infinity negative => if negative then "-inf" else "inf"
  | .notANumber => "nan"
  | r => String.ofList (numeralText r)

mutual

def literal : Json → String
  | .null => "None"
  | .bool b => if b then "True" else "False"
  | .int n => String.ofList (intText n)
  | .real r => numeralLiteral r
  | .str s => literalText s
  | .arr items => "[" ++ Text.join ", " (literalItems items) ++ "]"
  | .obj fields => "\x7b" ++ Text.join ", " (literalFields fields) ++ "\x7d"

def literalItems : List Json → List String
  | [] => []
  | v :: vs => literal v :: literalItems vs

def literalFields : List (String × Json) → List String
  | [] => []
  | (k, v) :: fs => (literalText k ++ ": " ++ literal v) :: literalFields fs

end

/-- A string as it is, and every other value as a literal. -/
def display : Json → String
  | .str s => s
  | v => literal v

@[simp] theorem display_str (s : String) : (Json.str s).display = s := rfl

def kindName : Json → String
  | .null => "NoneType"
  | .bool _ => "bool"
  | .int _ => "int"
  | .real _ => "float"
  | .str _ => "str"
  | .arr _ => "list"
  | .obj _ => "dict"

end Json

end PugComponents

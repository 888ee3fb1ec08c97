import PugComponents.Json.Basic

/-! Writing JSON in ASCII. A layout is either one line, or one item a line with a fixed indent per
level; an empty list or object is written as a bare pair of brackets in both. Every writer puts its
text in front of what follows, so that reading back can be stated for any rest of the input. -/

namespace PugComponents

/-- How items are laid out: on one line, or one a line, indented by `width` blanks per level. -/
inductive Layout where
  | line
  | indented (width : Nat)
deriving DecidableEq

def Layout.IsWidth (width : Int) : Prop := -0x8000000000000000 ≤ width ∧ width < 0x8000000000000000

instance (width : Int) : Decidable (Layout.IsWidth width) := inferInstanceAs (Decidable (_ ∧ _))

/-- The layout for an indent. Without one all is on one line; a negative one puts items on lines of
their own, as zero does. One that fits into no machine word has none. -/
def Layout.ofIndent? : Option Int → Option Layout
  | none => some .line
  | some width => if IsWidth width then some (.indented width.toNat) else none

namespace Json

def digitText (n : Nat) : List Char := Nat.toDigits 10 n

def intText (n : Int) : List Char :=
  match n with
  | .ofNat m => digitText m
  | .negSucc m => '-' :: digitText (m + 1)

def hex4 (n : Nat) : List Char :=
  [n / 0x1000 % 16, n / 0x100 % 16, n / 0x10 % 16, n % 16].map Nat.digitChar

/-- One character of a quoted text: two characters beyond the basic plane, as a surrogate pair. -/
def quoteChar (c : Char) : List Char :=
  if c = '"' then ['\\', '"']
  else if c = '\\' then ['\\', '\\']
  else if c = '\n' then ['\\', 'n']
  else if c = '\r' then ['\\', 'r']
  else if c = '\t' then ['\\', 't']
  else if c = '\x0c' then ['\\', 'f']
  else if c = '\x08' then ['\\', 'b']
  else if 0x20 ≤ c.toNat ∧ c.toNat < 0x7f then [c]
  else if c.toNat < 0x10000 then '\\' :: 'u' :: hex4 c.toNat
  else
    let n := c.toNat - 0x10000
    '\\' :: 'u' :: hex4 (0xd800 + n / 0x400) ++ '\\' :: 'u' :: hex4 (0xdc00 + n % 0x400)

/-- A quoted text: only printable ASCII, all else escaped. -/
def quoted (s : String) : List Char := '"' :: s.toList.flatMap quoteChar ++ ['"']

/-- Significant digits and power of ten without trailing zeros. -/
def normalDigits (digits : Nat) (exponent : Int) : Nat × Int :=
  if h : digits = 0 then (0, 0)
  else if digits % 10 = 0 then normalDigits (digits / 10) (exponent + 1) else (digits, exponent)
termination_by digits
decreasing_by exact Nat.div_lt_self (Nat.pos_of_ne_zero h) (by decide)

/-- Positional notation while the decimal point stands at most three zeros before or sixteen digits
after the start of the number, else scientific with an exponent of two digits or more. -/
def decimalText (digits : Nat) (exponent : Int) : List Char :=
  let (d, e) := normalDigits digits exponent
  let ds := digitText d
  let point := (ds.length : Int) + e
  if d = 0 then ['0', '.', '0']
  else if -4 < point ∧ point ≤ 16 then
    if e ≥ 0 then ds ++ List.replicate e.toNat '0' ++ ['.', '0']
    else if point > 0 then ds.take point.toNat ++ '.' :: ds.drop point.toNat
    else '0' :: '.' :: List.replicate (-point).toNat '0' ++ ds
  else
    let x := point - 1
    let xs := digitText x.natAbs
    ds.take 1 ++ (if ds.length = 1 then [] else '.' :: ds.drop 1) ++
      'e' :: (if x < 0 then '-' else '+') :: (if xs.length = 1 then '0' :: xs else xs)

def numeralText : Numeral → List Char
  | .decimal negative digits exponent => (if negative then ['-'] else []) ++ decimalText digits exponent
  | .infinity negative => (if negative then ['-'] else []) ++ "Infinity".toList
  | .notANumber => "NaN".toList

/-- What separates an opening bracket, or a comma, from the item at the given level. -/
def breakText (layout : Layout) (level : Nat) : List Char :=
  match layout with
  | .line => []
  | .indented width => '\n' :: List.replicate (width * level) ' '

def itemGap (layout : Layout) (level : Nat) : List Char :=
  match layout with
  | .line => [' ']
  | .indented _ => breakText layout level

mutual

/-- The value's text in front of `rest`, its items standing at `level + 1`. -/
def write (layout : Layout) (level : Nat) : Json → List Char → List Char
  | .null, rest => 'n' :: 'u' :: 'l' :: 'l' :: rest
  | .bool true, rest => 't' :: 'r' :: 'u' :: 'e' :: rest
  | .bool false, rest => 'f' :: 'a' :: 'l' :: 's' :: 'e' :: rest
  | .int n, rest => intText n ++ rest
  | .real r, rest => numeralText r ++ rest
  | .str s, rest => quoted s ++ rest
  | .arr [], rest => '[' :: ']' :: rest
  | .arr (v :: vs), rest =>
    '[' :: (breakText layout (level + 1) ++
      write layout (level + 1) v (writeItems layout (level + 1) vs
        (breakText layout level ++ ']' :: rest)))
  | .obj [], rest => '\x7b' :: '\x7d' :: rest
  | .obj ((k, v) :: fs), rest =>
    '\x7b' :: (breakText layout (level + 1) ++ (quoted k ++ (':' :: ' ' ::
      write layout (level + 1) v (writeFields layout (level + 1) fs
        (breakText layout level ++ '\x7d' :: rest)))))

def writeItems (layout : Layout) (level : Nat) : List Json → List Char → List Char
  | [], rest => rest
  | v :: vs, rest => ',' :: (itemGap layout level ++ write layout level v (writeItems layout level vs rest))

def writeFields (layout : Layout) (level : Nat) : List (String × Json) → List Char → List Char
  | [], rest => rest
  | (k, v) :: fs, rest =>
    ',' :: (itemGap layout level ++ (quoted k ++ (':' :: ' ' ::
      write layout level v (writeFields layout level fs rest))))

end

mutual

def isShort : Json → Bool
  | .int n => decide ((digitText n.natAbs).length ≤ digitLimit)
  | .arr items => areShort items
  | .obj fields => haveShort fields
  | _ => true

def areShort : List Json → Bool
  | [] => true
  | v :: vs => isShort v && areShort vs

def haveShort : List (String × Json) → Bool
  | [] => true
  | (_, v) :: fs => isShort v && haveShort fs

end

def render (layout : Layout) (v : Json) : String := String.ofList (write layout 0 v [])

end Json

end PugComponents

import PugComponents.Json.Basic

/-! Reading JSON. A repeated key keeps its first place and its last value; control characters inside
a quoted text are refused; the names `NaN`, `Infinity` and `-Infinity` are numbers. An integer with too
many digits ends the reading, whatever stands behind it. -/

namespace PugComponents

namespace Json

inductive Refusal where
  | malformed
  | tooManyDigits
deriving DecidableEq

def required {α : Type} : Option α → Except Refusal α
  | some a => .ok a
  | none => .error .malformed

@[simp] theorem required_some {α : Type} (a : α) : required (some a) = .ok a := rfl

@[simp] theorem ok_bind {α β : Type} (a : α) (f : α → Except Refusal β) : (.ok a >>= f) = f a := rfl

def isGap (c : Char) : Bool := c == ' ' || c == '\t' || c == '\n' || c == '\r'

def skipGap (cs : List Char) : List Char := cs.dropWhile isGap

def hexValue? (c : Char) : Option Nat :=
  if '0' ≤ c ∧ c ≤ '9' then some (c.toNat - 48)
  else if 'a' ≤ c ∧ c ≤ 'f' then some (c.toNat - 87)
  else if 'A' ≤ c ∧ c ≤ 'F' then some (c.toNat - 55)
  else none

def readHex4? : List Char → Option (Nat × List Char)
  | a :: b :: c :: d :: rest => do
    let a ← hexValue? a
    let b ← hexValue? b
    let c ← hexValue? c
    let d ← hexValue? d
    some (((a * 16 + b) * 16 + c) * 16 + d, rest)
  | _ => none

def readLow? : List Char → Option (Nat × List Char)
  | '\\' :: 'u' :: rest => do
    let (n, rest) ← readHex4? rest
    if 0xdc00 ≤ n ∧ n < 0xe000 then some (n, rest) else none
  | _ => none

/-- The character after a backslash and a `u`. Half of a pair alone is shown as the replacement
character. -/
def readUnit? (cs : List Char) : Option (Char × List Char) := do
  let (n, rest) ← readHex4? cs
  if 0xd800 ≤ n ∧ n < 0xdc00 then
    match readLow? rest with
    | some (low, rest) => some (Char.ofNat (0x10000 + (n - 0xd800) * 0x400 + (low - 0xdc00)), rest)
    | none => some ('\ufffd', rest)
  else if 0xdc00 ≤ n ∧ n < 0xe000 then some ('\ufffd', rest)
  else some (Char.ofNat n, rest)

def readEscape? : List Char → Option (Char × List Char)
  | '"' :: rest => some ('"', rest)
  | '\\' :: rest => some ('\\', rest)
  | '/' :: rest => some ('/', rest)
  | 'b' :: rest => some ('\x08', rest)
  | 'f' :: rest => some ('\x0c', rest)
  | 'n' :: rest => some ('\n', rest)
  | 'r' :: rest => some ('\r', rest)
  | 't' :: rest => some ('\t', rest)
  | 'u' :: rest => readUnit? rest
  | _ => none

def readQuoted? : Nat → List Char → Option (List Char × List Char)
  | 0, _ => none
  | _ + 1, [] => none
  | n + 1, c :: cs =>
    if c = '"' then some ([], cs)
    else if c = '\\' then do
      let (d, rest) ← readEscape? cs
      let (ds, rest) ← readQuoted? n rest
      some (d :: ds, rest)
    else if c.toNat < 0x20 then none
    else do
      let (ds, rest) ← readQuoted? n cs
      some (c :: ds, rest)

def digitsValue (ds : List Char) : Nat := ds.foldl (fun n d => n * 10 + (d.toNat - 48)) 0

/-- The digits of an integer part: a zero alone, or digits that start with another one. -/
def readWhole? : List Char → Option (List Char × List Char)
  | '0' :: rest => some (['0'], rest)
  | c :: rest =>
    if c.isDigit then some (c :: rest.takeWhile Char.isDigit, rest.dropWhile Char.isDigit) else none
  | [] => none

def readFraction : List Char → List Char × List Char
  | '.' :: rest =>
    if (rest.takeWhile Char.isDigit).isEmpty then ([], '.' :: rest)
    else (rest.takeWhile Char.isDigit, rest.dropWhile Char.isDigit)
  | cs => ([], cs)

def readExponent (cs : List Char) : Option Int × List Char :=
  match cs with
  | e :: rest =>
    if e = 'e' ∨ e = 'E' then
      let (sign, ds) : Int × List Char := match rest with
        | '-' :: ds => (-1, ds)
        | '+' :: ds => (1, ds)
        | ds => (1, ds)
      let digits := ds.takeWhile Char.isDigit
      if digits.isEmpty then (none, cs)
      else (some (sign * (digitsValue digits : Int)), ds.dropWhile Char.isDigit)
    else (none, cs)
  | [] => (none, [])

/-- A number without its sign: an integer unless a fraction or an exponent follows. -/
def readMagnitude (negative : Bool) (cs : List Char) : Except Refusal (Json × List Char) := do
  let (whole, rest) ← required (readWhole? cs)
  let (fraction, rest) := readFraction rest
  let (exponent, rest) := readExponent rest
  match fraction, exponent with
  | [], none =>
    let n : Int := digitsValue whole
    if whole.length ≤ digitLimit then .ok (.int (if negative then -n else n), rest)
    else .error .tooManyDigits
  | _, _ =>
    let scale : Int := exponent.getD 0 - fraction.length
    .ok (.real (.decimal negative (digitsValue (whole ++ fraction)) scale), rest)

def readNumber : List Char → Except Refusal (Json × List Char)
  | '-' :: 'I' :: 'n' :: 'f' :: 'i' :: 'n' :: 'i' :: 't' :: 'y' :: rest => .ok (.real (.infinity true), rest)
  | '-' :: cs => readMagnitude true cs
  | cs => readMagnitude false cs

mutual

/-- A value; the bound limits the number of nested and further items. -/
def readValue : Nat → List Char → Except Refusal (Json × List Char)
  | 0, _ => .error .malformed
  | n + 1, cs =>
    match cs with
    | 'n' :: 'u' :: 'l' :: 'l' :: rest => .ok (.null, rest)
    | 't' :: 'r' :: 'u' :: 'e' :: rest => .ok (.bool true, rest)
    | 'f' :: 'a' :: 'l' :: 's' :: 'e' :: rest => .ok (.bool false, rest)
    | 'N' :: 'a' :: 'N' :: rest => .ok (.real .notANumber, rest)
    | 'I' :: 'n' :: 'f' :: 'i' :: 'n' :: 'i' :: 't' :: 'y' :: rest => .ok (.real (.infinity false), rest)
    | '"' :: rest => do
      let (s, rest) ← required (readQuoted? n rest)
      .ok (.str (String.ofList s), rest)
    | '[' :: rest =>
      match skipGap rest with
      | ']' :: rest => .ok (.arr [], rest)
      | rest => do
        let (items, rest) ← readItems n rest
        .ok (.arr items, rest)
    | '\x7b' :: rest =>
      match skipGap rest with
      | '\x7d' :: rest => .ok (.obj [], rest)
      | rest => do
        let (fields, rest) ← readFields n [] rest
        .ok (.obj fields, rest)
    | cs => readNumber cs

def readItems : Nat → List Char → Except Refusal (List Json × List Char)
  | 0, _ => .error .malformed
  | n + 1, cs => do
    let (v, rest) ← readValue n cs
    match skipGap rest with
    | ']' :: rest => .ok ([v], rest)
    | ',' :: rest =>
      let (vs, rest) ← readItems n (skipGap rest)
      .ok (v :: vs, rest)
    | _ => .error .malformed

def readFields : Nat → List (String × Json) → List Char → Except Refusal (List (String × Json) × List Char)
  | 0, _, _ => .error .malformed
  | n + 1, done, cs =>
    match cs with
    | '"' :: rest => do
      let (key, rest) ← required (readQuoted? n rest)
      match skipGap rest with
      | ':' :: rest =>
        let (v, rest) ← readValue n (skipGap rest)
        let done := put done (String.ofList key) v
        match skipGap rest with
        | '\x7d' :: rest => .ok (done, rest)
        | ',' :: rest => readFields n done (skipGap rest)
        | _ => .error .malformed
      | _ => .error .malformed
    | _ => .error .malformed

end

def parse (text : String) : Except Refusal Json := do
  let cs := text.toList
  let (v, rest) ← readValue (2 * cs.length + 2) (skipGap cs)
  if (skipGap rest).isEmpty then .ok v else .error .malformed

end Json

end PugComponents

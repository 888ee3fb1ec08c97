import PugComponents.Text.CharClass
import PugComponents.Text.Word

/-! The forms of the pieces of a script. Each function says how many characters a piece takes up at the
start of a text; zero, or nothing, means that there is none. -/

namespace PugComponents.Script

def spaceTable : List (Nat × Nat) := [
  (0x9, 0xd), (0x20, 0x20), (0xa0, 0xa0), (0x1680, 0x1680), (0x2000, 0x200b), (0x2028, 0x2029),
  (0x202f, 0x202f), (0x205f, 0x2060), (0x3000, 0x3000), (0xfeff, 0xfeff)]

def isSpace (c : Char) : Bool := Text.inRanges spaceTable c

def breakableTable : List (Nat × Nat) := [
  (0x9, 0xd), (0x20, 0x20), (0x1680, 0x1680), (0x2000, 0x2006), (0x2008, 0x200a), (0x2028, 0x2029),
  (0x205f, 0x205f), (0x3000, 0x3000)]

/-- White space at which a line may be broken. Only this is passed over in search of a place for a
semicolon. -/
def isBreakable (c : Char) : Bool := Text.inRanges breakableTable c

def isLineBreak (c : Char) : Bool := c == '\n' || c == '\u2028' || c == '\u2029'

def signTable : List (Nat × Nat) := [
  (0x0, 0x1f), (0x21, 0x23), (0x25, 0x2f), (0x3a, 0x40), (0x5b, 0x5e), (0x60, 0x60), (0x7b, 0x7e)]

def isWordPart (c : Char) : Bool := !isSpace c && !Text.inRanges signTable c

def isHex (c : Char) : Bool :=
  c.isDigit || ('a' ≤ c && c ≤ 'f') || ('A' ≤ c && c ≤ 'F')

def isOctal (c : Char) : Bool := '0' ≤ c && c ≤ '7'

/-- Letters, as far as they go on with an operator that is spelled as a word. -/
def isLetter (c : Char) : Bool := c.isAlpha || (0x7f < c.toNat && Text.isWord c)

def countWhile (p : Char → Bool) (cs : List Char) : Nat := (cs.takeWhile p).length

def codePointLength? : List Char → Option Nat
  | '\x7b' :: cs =>
    let digits := countWhile isHex cs
    if digits = 0 || (cs.drop digits).head? != some '\x7d' then none else some (digits + 2)
  | a :: b :: c :: d :: _ => if [a, b, c, d].all isHex then some 4 else none
  | _ => none

/-- The rest of a word, while a number of characters still belongs to an escape. Digits may not come
first. -/
def wordLengthFrom : Nat → Bool → List Char → Nat
  | _, _, [] => 0
  | inside + 1, _, _ :: cs => 1 + wordLengthFrom inside false cs
  | 0, isFirst, c :: cs =>
    if isWordPart c && !(isFirst && c.isDigit) then 1 + wordLengthFrom 0 false cs
    else if c = '\\' && cs.head? == some 'u' then
      match codePointLength? (cs.drop 1) with
      | some n => 1 + wordLengthFrom (n + 1) false cs
      | none => 0
    else 0

def wordLength (cs : List Char) : Nat := wordLengthFrom 0 true cs

def digitsFrom (p : Char → Bool) : List Char → Nat
  | [] => 0
  | c :: cs =>
    if p c || (c = '_' && (cs.head?.map p).getD false) then 1 + digitsFrom p cs else 0

def digitsLength (p : Char → Bool) (cs : List Char) : Nat :=
  if (cs.head?.map p).getD false then digitsFrom p cs else 0

def exponentLength : List Char → Nat
  | e :: cs =>
    if e = 'e' || e = 'E' then
      let sign := if cs.head? == some '-' || cs.head? == some '+' then 1 else 0
      let digits := digitsLength Char.isDigit (cs.drop sign)
      if digits = 0 then 0 else 1 + sign + digits
    else 0
  | [] => 0

/-- A number in base 2, 8 or 16 behind its leading zero; a big integer ends with a mark. -/
def basedLength : List Char → Nat
  | b :: cs =>
    let digits :=
      if b = 'x' || b = 'X' then digitsLength isHex cs
      else if b = 'b' || b = 'B' then digitsLength (fun c => c == '0' || c == '1') cs
      else if b = 'o' || b = 'O' then digitsLength isOctal cs
      else 0
    if digits = 0 then 0
    else if (cs.drop digits).head? == some 'n' then digits + 2 else digits + 1
  | [] => 0

/-- Whole numbers that a fraction or an exponent may follow have at most one leading zero. -/
def takesFraction : List Char → Bool
  | ['0'] => true
  | '0' :: c :: _ => c != '0' && c != '_'
  | _ => true

def decimalLength (cs : List Char) : Nat :=
  let whole := digitsLength Char.isDigit cs
  let fraction (cs : List Char) (before : Nat) : Nat :=
    let digits := digitsLength Char.isDigit cs
    if before + digits = 0 then 0 else before + 1 + digits + exponentLength (cs.drop digits)
  match cs.drop whole with
  | 'n' :: _ => if whole = 0 then 0 else whole + 1
  | '.' :: rest =>
    if takesFraction (cs.take whole) then fraction rest whole else whole
  | rest =>
    if whole = 0 then 0
    else if takesFraction (cs.take whole) then whole + exponentLength rest else whole

def numberLength (cs : List Char) : Nat :=
  let based := if cs.head? == some '0' then basedLength (cs.drop 1) else 0
  if based = 0 then decimalLength cs else based + 1

def blockCommentRest? : List Char → Option Nat
  | [] => none
  | '*' :: '/' :: _ => some 2
  | _ :: cs => (blockCommentRest? cs).map (· + 1)

def commentLength : List Char → Nat
  | '/' :: '/' :: cs => 2 + countWhile (fun c => !isLineBreak c && c != '\r') cs
  | '/' :: '*' :: cs => ((blockCommentRest? cs).map (· + 2)).getD 0
  | _ => 0

/-- A comment between the marks of HTML, with the white space before it. -/
def htmlCommentLength (cs : List Char) : Nat :=
  let blanks := countWhile isBreakable cs
  let line (mark : Nat) (cs : List Char) : Nat :=
    blanks + mark + countWhile (fun c => !isLineBreak c && c != '\x00') cs
  match cs.drop blanks with
  | '<' :: '!' :: '-' :: '-' :: cs => line 4 cs
  | '-' :: '-' :: '>' :: cs => line 3 cs
  | _ => 0

def escapeLength : List Char → Nat
  | '\\' :: 'x' :: a :: b :: _ => if isHex a && isHex b then 4 else 0
  | '\\' :: 'u' :: cs => ((codePointLength? cs).map (· + 2)).getD 0
  | '\\' :: c :: cs =>
    if c = 'x' then 0
    else if isOctal c then 2 + countWhile isOctal (cs.take 2)
    else if (c = '\r' || c = '?') && (cs.head?.map isLineBreak).getD false then 3
    else 2
  | _ => 0

/-- The characters of a quoted literal up to its end, an escape or the end of the line. -/
def quotedLength (quote : Char) (cs : List Char) : Nat :=
  countWhile (fun c => c != quote && c != '\\' && c != '\r' && c != '\n') cs

/-- The characters of a template up to its end, an escape or a substitution. There are none if the text
ends before. -/
def templateLength? : List Char → Option Nat
  | [] => none
  | '$' :: '\x7b' :: _ => some 0
  | c :: cs =>
    if c = '\x60' || c = '\\' then some 0
    else if c = '\x00' then none
    else (templateLength? cs).map (· + 1)

def classRest? : List Char → Option Nat
  | [] => none
  | '\\' :: c :: cs => if c = '\n' then none else (classRest? cs).map (· + 2)
  | c :: cs =>
    if c = ']' then some 1
    else if c = '\\' || c = '\n' then none
    else (classRest? cs).map (· + 1)

/-- A regular expression up to its closing slash, while a number of characters still belongs to a class or
an escape. -/
def regexLengthFrom : Nat → List Char → Nat
  | _, [] => 0
  | inside + 1, _ :: cs => 1 + regexLengthFrom inside cs
  | 0, c :: cs =>
    if c = '/' || c = '\n' then 0
    else if c = '\\' then
      if cs.isEmpty || cs.head? == some '\n' then 0 else 1 + regexLengthFrom 1 cs
    else if c = '[' then
      match classRest? cs with
      | some n => 1 + regexLengthFrom n cs
      | none => 0
    else 1 + regexLengthFrom 0 cs

def regexLength (cs : List Char) : Nat := regexLengthFrom 0 cs

def flagsLength (cs : List Char) : Nat := countWhile (fun c => 'a' ≤ c && c ≤ 'z') cs

def hashLineLength : List Char → Nat
  | '#' :: '!' :: cs => 2 + countWhile (· != '\n') cs
  | _ => 0

def privateNameLength : List Char → Nat
  | '#' :: cs => if wordLength cs = 0 then 0 else 1 + wordLength cs
  | _ => 0

/-- The question mark of a conditional expression, with the white space before it. It is not one that
marks something optional, which is seen from what follows. -/
def ternaryLength? (cs : List Char) : Option Nat :=
  let blanks := countWhile isBreakable cs
  match cs.drop blanks with
  | '?' :: cs =>
    if cs.head? == some '?' || cs.head? == some '.' then none
    else match cs.dropWhile isBreakable with
      | ':' :: _ | ')' :: _ | ',' :: _ => none
      | '.' :: cs => if (cs.head?.map Char.isDigit).getD false then some (blanks + 1) else none
      | _ => some (blanks + 1)
  | _ => none

end PugComponents.Script

import PugComponents.Script.Lexical
import PugComponents.Script.Tables

/-! The next piece of a script. Which piece it is depends on what the state of reading expects: a slash may
divide or open a regular expression, a word may be reserved or not, and the end of a line may count as
a semicolon. -/

namespace PugComponents.Script

/-- A piece of the text: white space that belongs to nothing, and then the piece itself. -/
structure Lexeme where
  token : Nat
  gap : Nat
  length : Nat
  /-- Spelled like a fixed word, so it may still be taken for any other word. -/
  isReserved : Bool := false

namespace Lexeme

def stop (l : Lexeme) : Nat := l.gap + l.length

def longer : Option Lexeme → Lexeme → Option Lexeme
  | none, l => some l
  | some best, l => some (if best.stop < l.stop then l else best)

end Lexeme

inductive Gap where
  | plain | lineComment | blockComment
deriving DecidableEq

/-- What was found in search of a place for a semicolon: whether there is one, the text where the search
ended, and whether a comment was passed. -/
structure LineEnd where
  found : Bool
  rest : List Char
  commented : Bool

/-- Passes white space and comments behind the end of a line. A single slash ends the search without
success. -/
def passComments : Gap → Bool → List Char → LineEnd
  | _, commented, [] => ⟨true, [], commented⟩
  | .plain, commented, '/' :: '/' :: cs => passComments .lineComment commented cs
  | .plain, commented, '/' :: '*' :: cs => passComments .blockComment commented cs
  | .plain, commented, c :: cs =>
    if isBreakable c then passComments .plain commented cs
    else if c = '/' then ⟨false, cs, commented⟩
    else ⟨true, c :: cs, commented⟩
  | .lineComment, commented, c :: cs =>
    if isLineBreak c then passComments .plain true cs
    else if c = '\x00' then ⟨true, c :: cs, true⟩
    else passComments .lineComment commented cs
  | .blockComment, _, '*' :: '/' :: cs => passComments .plain true cs
  | .blockComment, commented, c :: cs =>
    if c = '\x00' then ⟨true, c :: cs, commented⟩ else passComments .blockComment commented cs

def continuationSigns : List Char :=
  ['\x60', ',', '.', ';', '*', '%', '>', '<', '=', '?', '^', '|', '&', '/', ':']

/-- Whether a line that starts like this leaves room for a semicolon before it. Parentheses and brackets go
on with an expression, a brace with a function; `in` and `instanceof` count as operators. -/
def startsAnew (inExpression inSignature : Bool) : List Char → Bool × List Char
  | [] => (true, [])
  | c :: cs =>
    if continuationSigns.contains c then (false, c :: cs)
    else if c = '\x7b' then (!inSignature, c :: cs)
    else if c = '(' || c = '[' then (!inExpression, c :: cs)
    else if c = '+' || c = '-' then (cs.head? == some c, cs)
    else if c = '!' then (cs.head? != some '=', cs)
    else if c = 'i' && cs.head? == some 'n' then
      let endsWord (cs : List Char) : Bool := !(cs.head?.map isLetter).getD false
      let cs := cs.drop 1
      if endsWord cs then (false, cs)
      else if "stanceof".toList.isPrefixOf cs && endsWord (cs.drop 8) then (false, cs.drop 8)
      else (true, cs)
    else (true, c :: cs)

/-- Looks for a place where a semicolon was left out: the end of the text, before a closing brace, or the
end of a line that the next one does not go on with. -/
def findLineEnd (inExpression inSignature : Bool) (cs : List Char) : LineEnd :=
  match cs.dropWhile fun c => isBreakable c && c != '\n' with
  | [] => ⟨true, [], false⟩
  | c :: cs =>
    if c = '\x00' then ⟨true, c :: cs, false⟩
    else if c = '\x7d' then
      let after := cs.dropWhile isBreakable
      ⟨after.head? != some ':' || inExpression, after, false⟩
    else if c = '\n' then
      let passed := passComments .plain false cs
      if passed.found then
        let (found, rest) := startsAnew inExpression inSignature passed.rest
        ⟨found, rest, passed.commented⟩
      else passed
    else ⟨false, c :: cs, false⟩

namespace Tables

variable (g : Tables)

def expects (expected : TokenSet) (t : Token) : Bool := expected.mem (g.token t)

def lengthOf (expected : TokenSet) (t : Token) (form : List Char → Nat) (cs : List Char) : Nat :=
  if g.expects expected t then form cs else 0

def piece (t : Token) (length : Nat) : Lexeme := ⟨g.token t, 0, length, false⟩

/-- The question mark of a conditional expression, which stands at the end of so many characters. -/
def ternary? (cs rest : List Char) : Option Lexeme :=
  (ternaryLength? rest).map fun n =>
    ⟨g.token .ternaryMark, cs.length - rest.length + n - 1, 1, false⟩

/-- The pieces that only count where they are expected, and that are looked for before all others. -/
def expectedPiece? (expected : TokenSet) (cs : List Char) : Option Lexeme :=
  let expects := g.expects expected
  if expects .templateText then
    if expects .lineEnd then none
    else match templateLength? cs with
      | some (n + 1) => some (g.piece .templateText (n + 1))
      | _ => none
  else if expects .lineEnd || expects .signatureEnd then
    let line := findLineEnd (expects (.text "||")) (expects .signatureEnd) cs
    if line.found then some (g.piece .lineEnd 0)
    else if !line.commented && expects .ternaryMark && line.rest.head? == some '?' then
      g.ternary? cs line.rest
    else none
  else if expects .ternaryMark then g.ternary? cs cs
  else if expects (.text "||") || expects .escape || expects .regexText then none
  else
    let n := htmlCommentLength cs
    if n = 0 then none else some (g.piece .htmlComment n)

/-- The text of a literal up to its next escape or its end. -/
def literalPiece? (expected : TokenSet) (cs : List Char) : Option Lexeme :=
  let candidates := [
    (Token.doubleText, quotedLength '"'), (Token.singleText, quotedLength '\x27'),
    (Token.regexEnd, fun cs => if cs.head? == some '/' then 1 else 0)]
  candidates.findSome? fun (t, form) =>
    let n := g.lengthOf expected t form cs
    if n = 0 then none else some (g.piece t n)

def longestSign (expected : TokenSet) (cs : List Char) : Nat × Nat :=
  g.signs.foldl (fun best (sign, n) =>
    if best.2 < sign.length && expected.mem n && sign.isPrefixOf cs then (n, sign.length) else best) (0, 0)

/-- A word is the fixed word of its spelling if that is expected. -/
def wordLexeme (expected : TokenSet) (gap : Nat) (word : List Char) : Lexeme :=
  let lexeme : Lexeme := ⟨g.token .word, gap, word.length, false⟩
  match g.words.lookup (String.ofList word) with
  | some n => { lexeme with token := if expected.mem n then n else lexeme.token, isReserved := true }
  | none => lexeme

/-- The longest piece of all other forms. Comments count everywhere. -/
def plainPiece? (expected : TokenSet) (cs : List Char) : Option Lexeme :=
  let attached := [
    (Token.escape, g.lengthOf expected .escape escapeLength cs),
    (Token.regexFlags, g.lengthOf expected .regexFlags flagsLength cs),
    (Token.regexText, g.lengthOf expected .regexText regexLength cs)]
  let best := (attached.filter fun (_, n) => decide (0 < n)).foldl
    (fun best (t, n) => Lexeme.longer best (g.piece t n)) none
  let gap := countWhile isSpace cs
  let cs := cs.drop gap
  if cs.isEmpty then some (best.getD ⟨g.token .ending, gap, 0, false⟩)
  else
    let detached := [
      (g.token .comment, commentLength cs), g.longestSign expected cs,
      (g.token .number, g.lengthOf expected .number numberLength cs),
      (g.token .hashLine, g.lengthOf expected .hashLine hashLineLength cs),
      (g.token .privateName, g.lengthOf expected .privateName privateNameLength cs)]
    let best := (detached.filter fun (_, n) => decide (0 < n)).foldl
      (fun best (t, n) => Lexeme.longer best ⟨t, gap, n, false⟩) best
    let n := wordLength cs
    if 0 < n && (g.expects expected .word || expected.meets g.wordSet) then
      Lexeme.longer best (g.wordLexeme expected gap (cs.take n))
    else best

def lexeme? (expected : TokenSet) (cs : List Char) : Option Lexeme :=
  g.expectedPiece? expected cs <|> g.literalPiece? expected cs <|> g.plainPiece? expected cs

end Tables

end PugComponents.Script

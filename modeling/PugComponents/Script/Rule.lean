import PugComponents.Script.Kind

/-! Grammar rules. A rule says which words, signs and phrases follow each other. Beside the shape it
carries what decides between two readings: a rank and a side, which settle the choice as soon as it
comes up, and a weight, which is counted when both readings are complete. -/

namespace PugComponents.Script

/-- The smallest pieces of a script. Those before `text` are recognised by their form, and some of them
only where a phrase can go on with them. -/
inductive Token where
  | ending
  | word
  | number
  /-- A name behind a number sign. -/
  | privateName
  /-- A first line that names an interpreter. -/
  | hashLine
  | comment
  /-- The comment marks of HTML, which run to the end of the line. -/
  | htmlComment
  /-- Characters between double quotes. -/
  | doubleText
  /-- Characters between single quotes. -/
  | singleText
  | escape
  | templateText
  | regexText
  | regexEnd
  | regexFlags
  /-- The place of a semicolon that was left out. -/
  | lineEnd
  /-- The same behind a function without a body. -/
  | signatureEnd
  /-- The question mark of a conditional expression. -/
  | ternaryMark
  /-- A fixed word or sign. -/
  | text (spelling : String)
deriving DecidableEq

namespace Token

def forms : List Token := [
  .ending, .word, .number, .privateName, .hashLine, .comment, .htmlComment, .doubleText, .singleText,
  .escape, .templateText, .regexText, .regexEnd, .regexFlags, .lineEnd, .signatureEnd, .ternaryMark]

def isComment (t : Token) : Bool := t = .comment ∨ t = .htmlComment

end Token

/-- How tightly a construct binds. Levels are ordered by lists of their own, not by number. -/
inductive Level where
  | member | templateCall | call | construction | unaryVoid | power | times | plus | shift | relation
  | equality | bitAnd | bitXor | bitOr | logicalAnd | logicalOr | ternary | assign | declare | literal
  | object | instantiation | unary | binary | heritage
deriving DecidableEq

inductive Rank where
  | number (n : Int)
  | level (l : Level)
deriving DecidableEq

inductive Side where
  | left | right
deriving DecidableEq

inductive Rule where
  | nothing
  | token (t : Token)
  | phrase (kind : Kind)
  | both (a b : Rule)
  | either (a b : Rule)
  | oneOrMore (item : Rule)
  | ranked (rank : Rank) (side : Option Side) (r : Rule)
  | weighted (weight : Int) (r : Rule)
  /-- What stands here counts as a phrase of another kind. -/
  | renamed (kind : Kind) (r : Rule)
  | part (part : Part) (r : Rule)
deriving DecidableEq

instance : Coe Token Rule := ⟨.token⟩

instance : Coe Kind Rule := ⟨.phrase⟩

instance : Coe String Rule := ⟨fun s => .token (.text s)⟩

namespace Rule

def tokens : Rule → List Token
  | nothing | phrase _ => []
  | token t => [t]
  | both a b | either a b => a.tokens ++ b.tokens
  | oneOrMore r | ranked _ _ r | weighted _ r | renamed _ r | part _ r => r.tokens

def repeated : Rule → List Rule
  | nothing | token _ | phrase _ => []
  | both a b | either a b => a.repeated ++ b.repeated
  | oneOrMore r => r.repeated ++ [r]
  | ranked _ _ r | weighted _ r | renamed _ r | part _ r => r.repeated

/-- Whether a rule admits the empty text. A phrase is never empty. -/
def isNullable : Rule → Bool
  | nothing => true
  | token _ | phrase _ => false
  | both a b => a.isNullable && b.isNullable
  | either a b => a.isNullable || b.isNullable
  | oneOrMore r | ranked _ _ r | weighted _ r | renamed _ r | part _ r => r.isNullable

end Rule

namespace Grammar

def seq : List Rule → Rule
  | [] => .nothing
  | [r] => r
  | r :: rs => .both r (seq rs)

def oneOf : List Rule → Rule
  | [] => .nothing
  | [r] => r
  | r :: rs => .either r (oneOf rs)

def optional (r : Rule) : Rule := .either r .nothing

def oneOrMore (r : Rule) : Rule := .oneOrMore r

def zeroOrMore (r : Rule) : Rule := optional (oneOrMore r)

def separated (separator r : Rule) : Rule := seq [r, zeroOrMore (seq [separator, r])]

def commas (r : Rule) : Rule := separated "," r

def commasOrNone (r : Rule) : Rule := optional (commas r)

def braced (rs : List Rule) : Rule := seq ["\x7b", seq rs, "\x7d"]

def parenthesized (rs : List Rule) : Rule := seq ["(", seq rs, ")"]

def bracketed (rs : List Rule) : Rule := seq ["[", seq rs, "]"]

def angled (rs : List Rule) : Rule := seq ["<", seq rs, ">"]

def rank (l : Level) (r : Rule) : Rule := .ranked (.level l) none r

def rankLeft (l : Level) (r : Rule) : Rule := .ranked (.level l) (some .left) r

def rankRight (l : Level) (r : Rule) : Rule := .ranked (.level l) (some .right) r

def leftward (r : Rule) : Rule := .ranked (.number 0) (some .left) r

def rightward (r : Rule) : Rule := .ranked (.number 0) (some .right) r

def weighted (weight : Int) (r : Rule) : Rule := .weighted weight r

def renamed (kind : Kind) (r : Rule) : Rule := .renamed kind r

def part (p : Part) (r : Rule) : Rule := .part p r

end Grammar

end PugComponents.Script

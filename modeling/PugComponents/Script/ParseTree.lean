import PugComponents.Script.Production

/-! Trees of productions over the pieces of a text, and which of two trees for one text is preferred. -/

namespace PugComponents.Script

inductive ParseTree where
  /-- A piece of the text with the white space before it. -/
  | leaf (token : Nat) (gap text : List Char) (start stop : Nat) (isComment : Bool)
  | node (production : Production) (parts : List ParseTree) (start stop : Nat) (weight : Int)

namespace ParseTree

instance : Inhabited ParseTree := ⟨.leaf 0 [] [] 0 0 false⟩

/-- Comments may stand between any two parts; they are no step of a production. -/
def isComment : ParseTree → Bool
  | leaf _ _ _ _ _ isComment => isComment
  | node .. => false

def symbol : ParseTree → Symbol
  | leaf token .. => .token token
  | node production .. => .phrase production.head

def parts : ParseTree → List ParseTree
  | leaf .. => []
  | node _ parts .. => parts

def start : ParseTree → Nat
  | leaf _ _ _ start _ _ => start
  | node _ _ start _ _ => start

def stop : ParseTree → Nat
  | leaf _ _ _ _ stop _ => stop
  | node _ _ _ stop _ => stop

def weight : ParseTree → Int
  | leaf .. => 0
  | node _ _ _ _ weight => weight

def weightAll (trees : List ParseTree) : Int := trees.foldl (fun sum t => sum + t.weight) 0

def ofParts (production : Production) (parts : List ParseTree) : ParseTree :=
  node production parts ((parts.head?.map start).getD 0) ((parts.getLast?.map stop).getD 0)
    (production.weight + weightAll parts)

/-- Whether two trees stand for the same symbol at the same place, with as many parts. -/
def alike (a b : ParseTree) : Bool :=
  decide (a.symbol = b.symbol) && a.start == b.start && a.stop == b.stop &&
    a.parts.length == b.parts.length && a.isComment == b.isComment

def symbolOrder : Symbol → Symbol → Ordering
  | .token m, .token n | .phrase m, .phrase n => compare m n
  | .token _, .phrase _ => .lt
  | .phrase _, .token _ => .gt

mutual

/-- The order of two trees: by their symbols, then by the number of their parts, then by the parts. -/
def order : ParseTree → ParseTree → Ordering
  | leaf m .., b => symbolOrder (.token m) b.symbol
  | node p parts .., b =>
    ((symbolOrder (.phrase p.head) b.symbol).then (compare parts.length b.parts.length)).then
      (orderAll parts b.parts)

def orderAll : List ParseTree → List ParseTree → Ordering
  | a :: as, b :: bs => (order a b).then (orderAll as bs)
  | _, _ => .eq

end

/-- Whether the second of two trees is preferred: it is heavier, or as heavy and smaller. -/
def prefersSecond (a b : ParseTree) : Bool :=
  if a.weight = b.weight then order a b == .gt else decide (a.weight < b.weight)

mutual

def text : ParseTree → List Char
  | leaf _ _ text .. => text
  | node _ parts .. => textAll parts

def textAll : List ParseTree → List Char
  | [] => []
  | t :: ts => text t ++ spacedTextAll ts

def spacedText : ParseTree → List Char
  | leaf _ gap text .. => gap ++ text
  | node _ parts .. => spacedTextAll parts

def spacedTextAll : List ParseTree → List Char
  | [] => []
  | t :: ts => spacedText t ++ spacedTextAll ts

end

def spelling (t : ParseTree) : String := String.ofList t.text

end ParseTree

end PugComponents.Script

import PugComponents.Script.Grammar

/-! Productions. A rule is spelled out as the sequences of tokens and phrases that it admits. Tokens and
phrases get numbers: tokens in the order in which the rules name them, phrases in the order of their
kinds, with one further phrase for every part that may be repeated. -/

namespace PugComponents.Script

inductive Symbol where
  | token (n : Nat)
  | phrase (n : Nat)
deriving DecidableEq

/-- One place in a production, with what decides between readings and how it is seen from outside. -/
structure Step where
  symbol : Symbol
  rank : Option Rank := none
  side : Option Side := none
  renamed : Option Kind := none
  part : Option Part := none
deriving DecidableEq

/-- Of two weights the one that lies further from zero, and the first if both lie as far. -/
def heavier (a b : Int) : Int := if a.natAbs < b.natAbs then b else a

structure Sequence where
  steps : List Step
  weight : Int := 0
deriving DecidableEq

namespace Sequence

def append (a b : Sequence) : Sequence := ⟨a.steps ++ b.steps, heavier a.weight b.weight⟩

def map (f : Step → Step) (s : Sequence) : Sequence := { s with steps := s.steps.map f }

end Sequence

structure Numbering where
  tokens : List Token
  kinds : Nat
  runs : List Rule

namespace Numbering

/-- The numbering of a grammar. Repeated parts that are written alike share a number. -/
def ofRules (rules : List Rule) : Numbering where
  tokens := (Token.forms ++ rules.flatMap Rule.tokens).eraseDups
  kinds := rules.length
  runs := (rules.flatMap Rule.repeated).eraseDups

def token (n : Numbering) (t : Token) : Nat := n.tokens.idxOf t

def run (n : Numbering) (item : Rule) : Nat := n.kinds + n.runs.idxOf item

end Numbering

/-- The sequences that a rule admits. What is said about a rank, a side, a name or a part holds for all
steps inside, unless an inner rule says it otherwise. -/
def Rule.expand (n : Numbering) : Rule → List Sequence
  | nothing => [⟨[], 0⟩]
  | token t => [⟨[{ symbol := .token (n.token t) }], 0⟩]
  | phrase k => [⟨[{ symbol := .phrase k.ctorIdx }], 0⟩]
  | both a b => (a.expand n).flatMap fun s => (b.expand n).map s.append
  | either a b => (a.expand n ++ b.expand n).eraseDups
  | oneOrMore r => [⟨[{ symbol := .phrase (n.run r) }], 0⟩]
  | ranked rank side r => (r.expand n).map (·.map fun s =>
      { s with rank := s.rank <|> some rank, side := s.side <|> side })
  | weighted w r => (r.expand n).map fun s => { s with weight := heavier w s.weight }
  | renamed k r => (r.expand n).map (·.map fun s => { s with renamed := s.renamed <|> some k })
  | part p r => (r.expand n).map (·.map fun s => { s with part := s.part <|> some p })

structure Production where
  head : Nat
  steps : Array Step
  weight : Int

namespace Production

instance : Inhabited Production := ⟨⟨0, #[], 0⟩⟩

def size (p : Production) : Nat := p.steps.size

def step? (p : Production) (i : Nat) : Option Step := p.steps[i]?

def symbol? (p : Production) (i : Nat) : Option Symbol := (p.step? i).map Step.symbol

/-- The productions of a phrase; the empty sequence is not one. -/
def ofSequences (head : Nat) (sequences : List Sequence) : List Production :=
  (sequences.filter fun s => !s.steps.isEmpty).map fun s => ⟨head, s.steps.toArray, s.weight⟩

/-- A run is two shorter runs, or a single item. -/
def ofRun (n : Numbering) (item : Rule) : List Production :=
  let self : Step := { symbol := .phrase (n.run item) }
  ofSequences (n.run item) (⟨[self, self], 0⟩ :: item.expand n)

/-- The productions of the rules in the order of their heads, but those with a negative weight first. -/
def ofRules (n : Numbering) (rules : List Rule) : List Production :=
  let ps := (rules.zipIdx.flatMap fun (r, i) => ofSequences i (r.expand n)) ++ n.runs.flatMap (ofRun n)
  (ps.filter fun p => decide (p.weight < 0)) ++ ps.filter fun p => decide (0 ≤ p.weight)

/-- All productions. The first one says that a whole script is a phrase of the given kind. -/
def all (n : Numbering) (rules : List Rule) (start : Nat) : List Production :=
  ⟨n.kinds + n.runs.length, #[{ symbol := .phrase start }], 0⟩ :: ofRules n rules

end Production

namespace Grammar

def orderedRules : List (Kind × Rule) :=
  (List.range rules.length).filterMap fun n => rules.find? (·.1.ctorIdx == n)

theorem length_orderedRules : orderedRules.length = rules.length := by decide +kernel

end Grammar

end PugComponents.Script

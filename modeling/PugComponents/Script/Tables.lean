import PugComponents.Script.Production

/-! What the reader of scripts looks up: the productions, the tokens with which a phrase can begin, and the
phrases with which a phrase can begin. All of it follows from the rules. -/

namespace PugComponents.Script

structure TokenSet where
  bits : Nat
deriving DecidableEq

namespace TokenSet

def empty : TokenSet := ⟨0⟩

def single (n : Nat) : TokenSet := ⟨1 <<< n⟩

def union (a b : TokenSet) : TokenSet := ⟨a.bits ||| b.bits⟩

def mem (a : TokenSet) (n : Nat) : Bool := a.bits.testBit n

def meets (a b : TokenSet) : Bool := a.bits &&& b.bits != 0

instance : EmptyCollection TokenSet := ⟨empty⟩

instance : Union TokenSet := ⟨union⟩

instance : Inhabited TokenSet := ⟨∅⟩

@[simp] theorem mem_empty (n : Nat) : mem ∅ n = false := Nat.zero_testBit n

@[simp] theorem mem_union (a b : TokenSet) (n : Nat) : mem (a ∪ b) n = (a.mem n || b.mem n) :=
  Nat.testBit_or ..

@[simp] theorem mem_single (m n : Nat) : mem (single m) n = decide (m = n) := by
  simp [single, mem, Nat.one_shiftLeft, Nat.testBit_two_pow]

end TokenSet

/-- The tokens with which a rule can begin, given those of the phrases. -/
def Rule.first (n : Numbering) (phrases : Array TokenSet) : Rule → TokenSet
  | nothing => ∅
  | token t => .single (n.token t)
  | phrase k => phrases.getD k.ctorIdx ∅
  | both a b => if a.isNullable then a.first n phrases ∪ b.first n phrases else a.first n phrases
  | either a b => a.first n phrases ∪ b.first n phrases
  | oneOrMore r | ranked _ _ r | weighted _ r | renamed _ r | part _ r => r.first n phrases

/-- The tokens with which the phrases can begin, after so many rounds of looking one rule further. -/
def firstOfKinds (n : Numbering) (rules : List Rule) : Nat → Array TokenSet → Array TokenSet
  | 0, known => known
  | rounds + 1, known =>
    let next := (rules.map (·.first n known)).toArray
    if next = known then known else firstOfKinds n rules rounds next

/-- How a phrase is reached at the very start of another one: with which tokens it can be followed inside
that one, and whether both can end together. -/
structure Reach where
  follows : TokenSet
  closes : Bool
deriving DecidableEq

namespace Reach

def union (a b : Reach) : Reach := ⟨a.follows ∪ b.follows, a.closes || b.closes⟩

end Reach

/-- The look-up tables of a grammar. Arrays are indexed by the numbers of tokens, phrases or
productions. -/
structure Tables where
  tokens : Array Token
  kinds : Array Kind
  productions : Array Production
  ladders : List (List Grammar.Rung)
  /-- The tokens with which a phrase can begin. -/
  firsts : Array TokenSet
  /-- The phrases that a phrase can begin with, itself among them. -/
  openings : Array (List (Nat × Reach))
  /-- The productions that begin with a token. -/
  byToken : Array (Array Nat)
  /-- The productions that begin with a phrase. -/
  byPhrase : Array (Array Nat)
  /-- The fixed signs. -/
  signs : List (List Char × Nat)
  /-- The fixed words. -/
  words : List (String × Nat)
  wordSet : TokenSet

namespace Tables

def leadsOf (productions : List Production) (phrases : Nat) : Array (List (Nat × Option Symbol)) :=
  (productions.foldl (fun leads p =>
    match p.symbol? 0 with
    | some (.phrase n) => leads.modify p.head ((n, p.symbol? 1) :: ·)
    | _ => leads) (Array.replicate phrases [])).map List.eraseDups

def firstOf (firsts : Array TokenSet) : Symbol → TokenSet
  | .token n => .single n
  | .phrase n => firsts.getD n ∅

def addReach (reached : Array (Option Reach)) (n : Nat) (r : Reach) : Array (Option Reach) × Bool :=
  match reached.getD n none with
  | none => (reached.setIfInBounds n (some r), true)
  | some old => (reached.setIfInBounds n (some (old.union r)), decide (old.union r ≠ old))

def follow (firsts : Array TokenSet) (leads : Array (List (Nat × Option Symbol))) :
    Nat → List Nat → Array (Option Reach) → Array (Option Reach)
  | 0, _, reached => reached
  | _ + 1, [], reached => reached
  | fuel + 1, n :: waiting, reached =>
    match reached.getD n none with
    | none => follow firsts leads fuel waiting reached
    | some r =>
      let (waiting, reached) := (leads.getD n []).foldl (fun (waiting, reached) (m, next) =>
        let (reached, isNew) := addReach reached m (match next with
          | none => r
          | some symbol => ⟨firstOf firsts symbol, false⟩)
        (if isNew then m :: waiting else waiting, reached)) (waiting, reached)
      follow firsts leads fuel waiting reached

/-- The phrases that a phrase can begin with. Each is looked at again when more is known about it, which
happens at most once for every token. -/
def openingsOf (firsts : Array TokenSet) (leads : Array (List (Nat × Option Symbol))) (tokens n : Nat) :
    List (Nat × Reach) :=
  let reached := follow firsts leads (leads.size * (tokens + 2) + 1) [n]
    ((Array.replicate leads.size none).setIfInBounds n (some ⟨∅, true⟩))
  reached.toList.zipIdx.filterMap fun (r, i) => r.map fun r => (i, r)

def starting (productions : List Production) (size : Nat) (number : Symbol → Option Nat) :
    Array (Array Nat) :=
  productions.zipIdx.foldl (fun table (p, i) =>
    match p.symbol? 0 >>= number with
    | some n => table.modify n (·.push i)
    | none => table) (Array.replicate size #[])

def isFixedWord (spelling : String) : Bool := spelling.toList.all Char.isAlpha

def ofGrammar (rules : List (Kind × Rule)) (ladders : List (List Grammar.Rung)) (start : Kind) :
    Tables :=
  let shapes := rules.map Prod.snd
  let n := Numbering.ofRules shapes
  let phrases := n.kinds + n.runs.length
  let productions := Production.all n shapes start.ctorIdx
  let kinds := firstOfKinds n shapes (n.kinds + 1) (Array.replicate n.kinds ∅)
  let firsts := kinds ++ (n.runs.map (·.first n kinds)).toArray
  let leads := leadsOf productions phrases
  let spelled := n.tokens.zipIdx.filterMap fun
    | (.text s, i) => some (s, i)
    | _ => none
  let words := spelled.filter fun (s, _) => isFixedWord s
  { tokens := n.tokens.toArray
    kinds := (rules.map Prod.fst).toArray
    productions := productions.toArray
    ladders := ladders
    firsts := firsts
    openings := (Array.range phrases).map (openingsOf firsts leads n.tokens.length)
    byToken := starting productions n.tokens.length fun
      | .token t => some t
      | .phrase _ => none
    byPhrase := starting productions phrases fun
      | .phrase t => some t
      | .token _ => none
    signs := (spelled.filter fun (s, _) => !isFixedWord s).map fun (s, i) => (s.toList, i)
    words := words
    wordSet := words.foldl (fun ts (_, i) => ts ∪ .single i) ∅ }

def production (g : Tables) (p : Nat) : Production := g.productions.getD p default

def first (g : Tables) (s : Symbol) : TokenSet := firstOf g.firsts s

def token (g : Tables) (t : Token) : Nat := g.tokens.idxOf t

def isRun (g : Tables) (n : Nat) : Bool := g.kinds.size ≤ n && n < g.firsts.size

def whole : Nat := 0

end Tables

def scriptTables : Tables := .ofGrammar Grammar.orderedRules Grammar.ladders .program

end PugComponents.Script

import PugComponents.Script.Tables

/-! The states of reading a script, and what can be done in each. A state holds the productions that may
be under way, how far each has come, and which tokens may follow it. States are worked out when they are
reached. Where a token admits more than one action the ranks decide; if they do not, all are kept and the
readings are followed side by side. -/

namespace PugComponents.Script

/-- A production under way: so many of its steps are read, and these tokens may come after it. -/
structure Item where
  production : Nat
  dot : Nat
  follows : TokenSet
deriving DecidableEq

/-- A state is given by its items. It also holds, for every phrase that may begin here, the tokens that
may come after that phrase, and the tokens that may come next. -/
structure State where
  items : Array Item
  opened : Array (Option TokenSet)
  expected : TokenSet

inductive Action where
  | reduce (production : Nat)
  | shift (target : State)
  | accept

namespace State

instance : Inhabited State := ⟨⟨#[], #[], ∅⟩⟩

/-- States are equal if their items are; the rest follows from them. -/
def same (a b : State) : Bool := a.items = b.items

end State

namespace Tables

variable (g : Tables)

def next? (i : Item) : Option Symbol := (g.production i.production).symbol? i.dot

def afterNext (i : Item) : TokenSet :=
  match (g.production i.production).symbol? (i.dot + 1) with
  | some s => g.first s
  | none => i.follows

def addFollows (opened : Array (Option TokenSet)) (n : Nat) (ts : TokenSet) : Array (Option TokenSet) :=
  opened.modify n fun old => some ((old.getD ∅) ∪ ts)

def openedBy (items : Array Item) : Array (Option TokenSet) :=
  let waiting := items.foldl (fun waiting i =>
    match g.next? i with
    | some (.phrase n) => addFollows waiting n (g.afterNext i)
    | _ => waiting) (Array.replicate g.firsts.size none)
  waiting.toList.zipIdx.foldl (fun opened (after, n) =>
    match after with
    | none => opened
    | some after => (g.openings.getD n []).foldl (fun opened (m, r) =>
        addFollows opened m (if r.closes then r.follows ∪ after else r.follows)) opened)
    (Array.replicate g.firsts.size none)

def expectedBy (items : Array Item) : TokenSet :=
  items.foldl (fun ts i =>
    match g.next? i with
    | some s => ts ∪ g.first s
    | none => ts ∪ i.follows) ∅

def stateOf (items : Array Item) : State := ⟨items, g.openedBy items, g.expectedBy items⟩

def initial : State := g.stateOf #[⟨whole, 0, .single (g.token .ending)⟩]

def beginning : Symbol → Array Nat
  | .token n => g.byToken.getD n #[]
  | .phrase n => g.byPhrase.getD n #[]

/-- The state after a symbol. Items that have just begun come first, so the items are always ordered by
the number of steps read. -/
def goto? (s : State) (symbol : Symbol) : Option State :=
  let begun := (g.beginning symbol).filterMap fun p =>
    (s.opened.getD (g.production p).head none).map fun ts => ⟨p, 1, ts⟩
  let advanced := s.items.filterMap fun i =>
    if g.next? i = some symbol then some { i with dot := i.dot + 1 } else none
  let items := begun ++ advanced
  if items.isEmpty then none else some (g.stateOf items)

/-- A rank in competition, with the phrases it belongs to. -/
structure Standing where
  rank : Option Rank
  heads : List Nat

def isOn (rung : Grammar.Rung) (s : Standing) : Bool :=
  match rung with
  | .level l => s.rank = some (.level l)
  | .kind k => s.heads.contains k.ctorIdx

/-- The order of two competitors on one ladder: the one whose rung comes first wins. The flags say whether
the rung of one has already been passed. -/
def compareOn (a b : Standing) : Bool → Bool → List Grammar.Rung → Ordering
  | _, _, [] => .eq
  | seenA, seenB, rung :: rungs =>
    if isOn rung a then if seenB then .lt else compareOn a b true seenB rungs
    else if isOn rung b then if seenA then .gt else compareOn a b seenA true rungs
    else compareOn a b seenA seenB rungs

/-- The number of a rank; without a rank it is zero, on a ladder there is none. -/
def rankNumber? : Option Rank → Option Int
  | none => some 0
  | some (.number n) => some n
  | some (.level _) => none

/-- Which competitor binds more tightly. Numbers other than zero are compared first; then the first ladder
on which both stand decides. -/
def compareStanding (a b : Standing) : Ordering :=
  match rankNumber? a.rank, rankNumber? b.rank with
  | some m, some n =>
    if m ≠ n then compare m n
    else if m ≠ 0 then .eq
    else onLadders
  | _, _ => onLadders
where
  onLadders : Ordering :=
    ((g.ladders.map (compareOn a b false false)).find? (· ≠ .eq)).getD .eq

structure Reductions where
  items : List Item := []
  standing : Standing := ⟨none, []⟩
  sides : List (Option Side) := []

/-- The rank and the side of an item are those of the step read last. -/
def itemStep? (i : Item) : Option Step :=
  if i.dot = 0 then none else (g.production i.production).step? (i.dot - 1)

def itemRank (i : Item) : Option Rank := (g.itemStep? i).bind Step.rank

def itemSide (i : Item) : Option Side := (g.itemStep? i).bind Step.side

def itemHead (i : Item) : Nat := (g.production i.production).head

def isComplete (i : Item) : Bool := (g.next? i).isNone

/-- Adds a completed item unless another one binds more tightly. -/
def addReduction (r : Reductions) (i : Item) : Reductions :=
  let rank := g.itemRank i
  let head := g.itemHead i
  let side := g.itemSide i
  if r.items.isEmpty then ⟨[i], ⟨rank, [head]⟩, [side]⟩
  else match g.compareStanding ⟨rank, [head]⟩ r.standing with
    | .gt => ⟨[i], ⟨rank, [head]⟩, [side]⟩
    | .eq => ⟨r.items ++ [i], ⟨rank, head :: r.standing.heads⟩, side :: r.sides⟩
    | .lt => r

def ending (s : State) (t : Nat) : List Item :=
  (s.items.filter fun i => g.isComplete i && i.follows.mem t).toList

/-- The items that go on with a token, the ones that only begin with it apart. -/
def continuing (s : State) (t : Nat) : List Item :=
  (s.items.filter fun i => decide (0 < i.dot) &&
    (match g.next? i with
      | some next => (g.first next).mem t
      | none => false)).toList

inductive Contest where
  | shift | reduce | both
deriving DecidableEq

/-- Decides between going on and ending a phrase. Inside one and the same run the phrase is ended. Else the
items that go on are compared with the reductions; if neither side is ahead the grouping decides. -/
def contest (going ended : List Item) (r : Reductions) : Contest :=
  let heads := (going ++ ended).map g.itemHead
  let orders := going.map fun i => g.compareStanding ⟨g.itemRank i, [g.itemHead i]⟩ r.standing
  let ahead := orders.contains .gt
  let behind := orders.contains .lt
  if heads.all fun h => g.isRun h && heads.head? == some h then .reduce
  else if ahead && behind then .both
  else if ahead then .shift
  else if behind then .reduce
  else if r.sides.all (· = some .left) then .reduce
  else if r.sides.all (· = some .right) then .shift
  else .both

/-- What can be done in a state when a token comes next: reductions first. -/
def actions (s : State) (t : Nat) : List Action :=
  let ended := g.ending s t
  let r := ended.foldl g.addReduction {}
  let reduces := r.items.map fun i => Action.reduce i.production
  if r.items.any (·.production = whole) then [.accept]
  else match if t = g.token .ending then none else g.goto? s (.token t) with
    | none => reduces
    | some target =>
      if r.items.isEmpty then [.shift target]
      else match g.contest (g.continuing s t) ended r with
        | .shift => [.shift target]
        | .reduce => reduces
        | .both => reduces ++ [.shift target]

end Tables

end PugComponents.Script

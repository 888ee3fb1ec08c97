import PugComponents.Script.Lexeme
import PugComponents.Script.Stacks

/-! Reading a script. Several readings of one text can be under way at once. Each is a branch with a stack
of its own; branches that reach the same state at the same place become one. A script is read when a branch
comes to its end with nothing but a script on its stack. -/

namespace PugComponents.Script

/-- A branch is stuck where nothing can go on, and done when it is at its end or was taken over by
another one. -/
inductive Status where
  | active | stuck | done
deriving DecidableEq

structure Branch where
  top : Nat
  rest : List Char
  status : Status := .active

instance : Inhabited Branch := ⟨⟨0, [], .done⟩⟩

/-- All readings under way, and the best complete one. -/
structure Readings where
  graph : Stacks
  branches : Array Branch
  found : Option (List ParseTree) := none

def maxBranches : Nat := 6

/-- So many more are admitted until the next comparison. -/
def spareBranches : Nat := 4

namespace Readings

def branch (s : Readings) (v : Nat) : Branch := s.branches.getD v default

def top (s : Readings) (b : Branch) : Vertex := s.graph.get b.top

def push (s : Readings) (below : Nat) (state : State) (position : Nat) (tree : ParseTree) :
    Readings × Nat :=
  match s with
  | ⟨graph, branches, found⟩ =>
    let (graph, top) := graph.push below state position tree
    (⟨graph, branches, found⟩, top)

def setBranch (s : Readings) (v : Nat) (b : Branch) : Readings :=
  { s with branches := s.branches.setIfInBounds v b }

def setStatus (s : Readings) (v : Nat) (status : Status) : Readings :=
  { s with branches := s.branches.modify v fun b => { b with status := status } }

/-- Whether two branches have come to the same point. -/
def meet (s : Readings) (a b : Branch) : Bool :=
  decide (a.status = .active) && decide (b.status = .active) && s.graph.same a.top b.top

def merge (s : Readings) (a b : Branch) : Readings :=
  { s with graph := s.graph.merge a.top b.top }

def splitComments (trees : List ParseTree) : List ParseTree × List ParseTree :=
  let reversed := trees.reverse
  ((reversed.dropWhile ParseTree.isComment).reverse, (reversed.takeWhile ParseTree.isComment).reverse)

def phraseOf (p : Production) (trees : List ParseTree) : ParseTree × List ParseTree :=
  let (parts, comments) := splitComments trees
  (.ofParts p parts, comments)

def preferred (p : Production) : List (List ParseTree) → Option (ParseTree × List ParseTree)
  | [] => none
  | trees :: more => some (more.foldl (fun best trees =>
      let other := phraseOf p trees
      if best.1.prefersSecond other.1 then other else best) (phraseOf p trees))

/-- Adds a branch, or lets another one but `v` take it over. -/
def join (s : Readings) (v : Nat) (b : Branch) : Readings :=
  match (List.range s.branches.size).find? fun j => j != v && s.meet (s.branch j) b with
  | some j => s.merge (s.branch j) b
  | none => { s with branches := s.branches.push b }

/-- Goes on behind a phrase that ends on branch `v` and begins at a vertex. -/
def goOn (g : Tables) (v : Nat) (p : Production) (s : Readings) (base : Nat)
    (ways : List (List ParseTree)) : Readings :=
  if maxBranches + spareBranches < s.branches.size then s
  else match preferred p ways, g.goto? (s.graph.get base).state (.phrase p.head) with
    | some (phrase, comments), some state =>
      let rest := (s.branch v).rest
      let (s, top) := comments.foldl (fun (s, top) c => s.push top state c.stop c)
        (s.push base state phrase.stop phrase)
      s.join v ⟨top, rest, .active⟩
    | _, _ => s

/-- Ends a phrase on branch `v`. New branches are added behind the others. -/
def reduce (g : Tables) (v : Nat) (s : Readings) (p : Nat) : Readings :=
  let production := g.production p
  (s.graph.pop (s.branch v).top production.size).foldl
    (fun s (base, ways) => goOn g v production s base ways) s

/-- Ends several phrases side by side. The result also names the first branch that the last of them
added. -/
def reduceAll (g : Tables) (v : Nat) (s : Readings) (ps : List Nat) : Readings × Option Nat :=
  ps.foldl (fun (s, added) p =>
    let before := s.branches.size
    let s := s.reduce g v p
    (s, if before < s.branches.size then some before else added)) (s, none)

def take (s : Readings) (v : Nat) (state : State) (l : Lexeme) (token : Nat) (isComment : Bool) :
    Readings :=
  let b := s.branch v
  let start := (s.top b).position + l.gap
  let leaf := ParseTree.leaf token (b.rest.take l.gap) ((b.rest.drop l.gap).take l.length) start
    (start + l.length) isComment
  let (s, top) := s.push b.top state (start + l.length) leaf
  s.setBranch v ⟨top, b.rest.drop l.stop, .active⟩

def prefersSecond (a b : List ParseTree) : Bool :=
  let m := ParseTree.weightAll a
  let n := ParseTree.weightAll b
  if m ≠ n then decide (m < n)
  else if a.length ≠ b.length then decide (b.length < a.length)
  else ParseTree.orderAll a b == .gt

def accept (s : Readings) (v : Nat) : Readings :=
  let found := (s.graph.toBottom (s.graph.size + 1) (s.branch v).top).foldl (fun found trees =>
    match found with
    | none => some trees
    | some best => some (if prefersSecond best trees then trees else best)) s.found
  { s with found := found }.setStatus v .done

/-- Does on branch `v` what a piece admits, until the piece is read. -/
def act (g : Tables) (v : Nat) (l : Lexeme) : Nat → Readings → Nat → Readings
  | 0, s, _ => s.setStatus v .stuck
  | fuel + 1, s, token =>
    let state := (s.top (s.branch v)).state
    if (g.tokens.getD token .ending).isComment then s.take v state l token true
    else if token = g.token .ending && state.same g.initial then
      { s with found := some [] }.setStatus v .done
    else
      let actions := g.actions state token
      let phrases := actions.filterMap fun
        | .reduce p => some p
        | _ => none
      let target := actions.findSome? fun
        | .shift target => some target
        | _ => none
      if actions.any fun | .accept => true | _ => false then s.accept v
      else
        let (s, added) := s.reduceAll g v phrases
        match target, added with
        | some state, _ => s.take v state l token false
        | none, some i =>
          let b := s.branch i
          act g v l fuel { s with branches := (s.branches.eraseIdxIfInBounds i).setIfInBounds v b } token
        | none, none =>
          if !phrases.isEmpty then s.setStatus v .done
          else if l.isReserved && token != g.token .word &&
              !(g.actions state (g.token .word)).isEmpty then
            act g v l fuel s (g.token .word)
          else s.setStatus v .stuck

/-- The steps that are admitted for one piece of a text of the given length: fewer phrases than that can
end before it. -/
def stepBound (length : Nat) : Nat := 64 * (length + 4)

def read (g : Tables) (length : Nat) (s : Readings) (v : Nat) : Readings :=
  let b := s.branch v
  match g.lexeme? (s.top b).state.expected b.rest with
  | none => s.setStatus v .stuck
  | some l => act g v l (stepBound length) s l.token

/-- Reads on branch `v` until it is as far as the others, and the first one until it is further. -/
def catchUp (g : Tables) (length v : Nat) : Nat → Readings → Nat → Readings × Nat
  | 0, s, far => (s, far)
  | fuel + 1, s, far =>
    if (s.branch v).status = .active then
      let s := s.read g length v
      let position := (s.top (s.branch v)).position
      if far < position || (0 < v && position = far) then (s, position)
      else catchUp g length v fuel s far
    else (s, far)

/-- Adds a branch to those that are kept, the better ones first. A branch that is stuck is given up if
another one is not. -/
def keep (s : Readings) : List Branch → Branch → Readings × List Branch
  | [], c => (s, [c])
  | b :: bs, c =>
    if b.status = .active ∧ c.status ≠ .active then (s, b :: bs)
    else if b.status ≠ .active ∧ c.status = .active then keep s bs c
    else if s.meet b c then (s.merge b c, b :: bs)
    else if (s.top b).weight < (s.top c).weight then
      let (s, bs) := keep s bs b
      (s, c :: bs)
    else
      let (s, bs) := keep s bs c
      (s, b :: bs)

def condense (s : Readings) : Readings :=
  let (s, kept) := (s.branches.toList.filter fun b => b.status ≠ .done).foldl
    (fun (s, kept) b => s.keep kept b) (s, [])
  { s with branches := ((kept.take maxBranches).filter fun b => b.status = .active).toArray }

/-- Reads on all branches in turn until none is left. -/
def run (g : Tables) (length : Nat) : Nat → Readings → Nat → Option (List ParseTree)
  | 0, s, _ => s.found
  | fuel + 1, s, far =>
    if s.branches.isEmpty then s.found
    else
      let (s, far) := (List.range (maxBranches + spareBranches + 1)).foldl
        (fun (s, far) v => catchUp g length v (length + 2) s far) (s, far)
      run g length fuel s.condense far

end Readings

/-- The trees of a text, comments included, if it is a script. -/
def Tables.parse? (g : Tables) (cs : List Char) : Option (List ParseTree) :=
  Readings.run g cs.length (4 * (cs.length + 4)) ⟨.empty g.initial, #[⟨0, cs, .active⟩], none⟩ 0

end PugComponents.Script

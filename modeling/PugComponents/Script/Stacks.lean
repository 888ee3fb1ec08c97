import PugComponents.Script.Automaton
import PugComponents.Script.ParseTree

/-! Stacks of states with the trees between them. Many stacks are kept at once and share what they have in
common, so that all of them form one graph: a vertex is a state at a place of the text, and its links are
the ways that lead there from below. -/

namespace PugComponents.Script

structure Link where
  tree : ParseTree
  below : Nat

/-- A state that was reached at a place of the text, with all ways that led there. -/
structure Vertex where
  state : State
  position : Nat
  links : List Link := []
  /-- The weight of the heaviest way. -/
  weight : Int := 0

instance : Inhabited Vertex := ⟨⟨default, 0, [], 0⟩⟩

structure Stacks where
  vertices : Array Vertex

def maxLinks : Nat := 8

/-- No more ways than these are looked at when a phrase ends. -/
def maxPaths : Nat := 64

namespace Stacks

def empty (state : State) : Stacks := ⟨#[⟨state, 0, [], 0⟩]⟩

def size (s : Stacks) : Nat := s.vertices.size

def get (s : Stacks) (i : Nat) : Vertex := s.vertices.getD i default

def modify (s : Stacks) (i : Nat) (f : Vertex → Vertex) : Stacks := ⟨s.vertices.modify i f⟩

def push (s : Stacks) (below : Nat) (state : State) (position : Nat) (tree : ParseTree) : Stacks × Nat :=
  let top := s.size
  let weight := (s.get below).weight + tree.weight
  (⟨s.vertices.push ⟨state, position, [⟨tree, below⟩], weight⟩⟩, top)

@[simp] theorem size_push (s : Stacks) (below : Nat) (state : State) (position : Nat)
    (tree : ParseTree) : (s.push below state position tree).1.size = s.size + 1 := by
  simp [push, size]

theorem get_push {s : Stacks} {i : Nat} (h : i < s.size) (below : Nat) (state : State)
    (position : Nat) (tree : ParseTree) : (s.push below state position tree).1.get i = s.get i := by
  have lt : i < s.vertices.size := h
  have le : i < s.vertices.size + 1 := Nat.lt_succ_of_lt lt
  simp [push, get, Array.getD, lt, le, Array.getElem_push]

def same (s : Stacks) (i j : Nat) : Bool :=
  (s.get i).position == (s.get j).position && (s.get i).state.same (s.get j).state

/-- Adds a way to a vertex. If one with a like tree is known, the two are made one: from the same vertex
the heavier tree stays; else the ways below are added to those known. -/
def addLink : Nat → Stacks → Nat → Link → Stacks
  | 0, s, _, _ => s
  | fuel + 1, s, i, link =>
    let weight := (s.get link.below).weight + link.tree.weight
    let links := (s.get i).links
    let raise (s : Stacks) : Stacks := s.modify i fun v =>
      { v with weight := if v.weight < weight then weight else v.weight }
    if link.below = i then s
    else match links.findIdx? fun l => l.tree.alike link.tree &&
        (l.below == link.below || s.same l.below link.below) with
      | some k =>
        let known := links.getD k link
        if known.below = link.below then
          if known.tree.weight < link.tree.weight then
            s.modify i fun v => { v with links := v.links.set k link, weight := weight }
          else s
        else
          raise ((s.get link.below).links.foldl (fun s l => addLink fuel s known.below l) s)
      | none =>
        if maxLinks ≤ links.length then s
        else raise (s.modify i fun v => { v with links := v.links ++ [link] })

def merge (s : Stacks) (i j : Nat) : Stacks :=
  (s.get j).links.foldl (fun s l => addLink (s.size + 1) s i l) s

/-- A way down a stack: the vertex reached, the trees passed, and how many steps are missing. -/
structure Path where
  vertex : Nat
  trees : List ParseTree
  missing : Nat

/-- The ways one tree further down; comments are no steps. -/
def extend (s : Stacks) (p : Path) : List Path :=
  (s.get p.vertex).links.map fun l =>
    ⟨l.below, l.tree :: p.trees, if l.tree.isComment then p.missing else p.missing - 1⟩

def complete (s : Stacks) : Nat → List Path → List Path
  | 0, _ => []
  | fuel + 1, paths =>
    if paths.isEmpty then []
    else
      let further := (paths.filter fun p => decide (0 < p.missing)).map s.extend
      let next := (further.filterMap List.head? ++ further.flatMap List.tail).take maxPaths
      (paths.filter fun p => p.missing == 0) ++ complete s fuel next

/-- The trees on the ways that lead so many steps down from a vertex, by the vertices they lead to. -/
def pop (s : Stacks) (top steps : Nat) : List (Nat × List (List ParseTree)) :=
  let paths := s.complete (s.size + 2) [⟨top, [], steps⟩]
  (paths.map Path.vertex).eraseDups.map fun i =>
    (i, (paths.filter fun p => p.vertex == i).map Path.trees)

/-- The trees on the ways that lead to the bottom, with a bound on their number. -/
def toBottom (s : Stacks) : Nat → Nat → List (List ParseTree)
  | 0, _ => []
  | fuel + 1, i =>
    let links := (s.get i).links
    if links.isEmpty then [[]]
    else links.flatMap fun l => (toBottom s fuel l.below).map (· ++ [l.tree])

end Stacks

end PugComponents.Script

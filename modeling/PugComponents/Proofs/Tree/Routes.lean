import PugComponents.Proofs.Tree.Lineage

/-! Nodes together with the way that leads to them. A step of a route enters one part of a node, so that
the branches of a fork can be told apart, which a lineage does not do. The nodes of a walk stand in
the same order with their routes. -/

namespace PugComponents.Node

/-- The part of a node in which a child stands. -/
inductive Branch where
  | below
  | main
  | alternate

abbrev Step := Node × Branch

/-- The steps from a node down to one below it. -/
abbrev Route := List Step

def branches : Node → List (Branch × Node)
  | .fork _ _ main alternate =>
    main.toList.map (Prod.mk .main) ++ alternate.toList.map (Prod.mk .alternate)
  | n => n.children.map (Prod.mk .below)

theorem map_snd_branches (n : Node) : n.branches.map Prod.snd = n.children := by
  cases n <;> simp [branches, children, Function.comp_def]

theorem mem_children_of_mem_branches {n c : Node} {b : Branch} (h : (b, c) ∈ n.branches) :
    c ∈ n.children :=
  map_snd_branches n ▸ List.mem_map_of_mem (f := Prod.snd) h

def under (step : Step) (reached : Route × Node) : Route × Node := (step :: reached.1, reached.2)

mutual

/-- The nodes of the walk that does not go below the nodes that pass a test, with their routes. -/
def routesUntil (stop : Node → Bool) : Node → List (Route × Node)
  | n@(.leaf ..) => [([], n)]
  | n@(.seq _ _ nodes) => ([], n) :: if stop n then [] else routesAllUntil stop (n, .below) nodes
  | n@(.owner _ _ block) =>
    ([], n) :: if stop n then [] else routesOptionUntil stop (n, .below) block
  | n@(.fork _ _ main alternate) =>
    ([], n) ::
      if stop n then []
      else routesOptionUntil stop (n, .main) main ++ routesOptionUntil stop (n, .alternate) alternate
  | n@(.inclusion _ file _) => ([], n) :: if stop n then [] else routesFileUntil stop (n, .below) file
  | n@(.extension _ file) => ([], n) :: if stop n then [] else routesFileUntil stop (n, .below) file
  | n@(.rawInclusion ..) => [([], n)]
  | n@(.fileReference ..) => [([], n)]

def routesAllUntil (stop : Node → Bool) (step : Step) : List Node → List (Route × Node)
  | [] => []
  | n :: ns => (routesUntil stop n).map (under step) ++ routesAllUntil stop step ns

def routesOptionUntil (stop : Node → Bool) (step : Step) : Option Node → List (Route × Node)
  | none => []
  | some n => (routesUntil stop n).map (under step)

def routesFileUntil (stop : Node → Bool) (step : Step) : Option Node → List (Route × Node)
  | some (.fileReference _ _ _ ast) => routesOptionUntil stop step ast
  | _ => []

end

variable {stop : Node → Bool}

theorem routesAllUntil_eq_flatMap (stop : Node → Bool) (step : Step) (ns : List Node) :
    routesAllUntil stop step ns = ns.flatMap fun n => (n.routesUntil stop).map (under step) := by
  induction ns with
  | nil => rw [routesAllUntil]; rfl
  | cons n ns ih => rw [routesAllUntil, ih, List.flatMap_cons]

theorem routesOptionUntil_eq (stop : Node → Bool) (step : Step) (o : Option Node) :
    routesOptionUntil stop step o =
      o.toList.flatMap fun n => (n.routesUntil stop).map (under step) := by
  cases o <;> simp [routesOptionUntil]

theorem routesFileUntil_eq (stop : Node → Bool) (step : Step) (file : Option Node) :
    routesFileUntil stop step file =
      (ast? file).toList.flatMap fun n => (n.routesUntil stop).map (under step) := by
  unfold routesFileUntil ast?
  split <;> simp [routesOptionUntil_eq]

theorem routesUntil_eq (stop : Node → Bool) (n : Node) :
    n.routesUntil stop = ([], n) :: if stop n then [] else
      n.branches.flatMap fun p => (p.2.routesUntil stop).map (under (n, p.1)) := by
  cases n <;>
    simp [routesUntil, branches, children, routesAllUntil_eq_flatMap, routesOptionUntil_eq,
      routesFileUntil_eq, List.flatMap_map, List.flatMap_append]

theorem map_snd_routesUntil (stop : Node → Bool) (n : Node) :
    (n.routesUntil stop).map Prod.snd = n.walkUntil stop := by
  induction n using childInduction with
  | step n ih =>
    have deeper : ∀ p ∈ n.branches,
        ((p.2.routesUntil stop).map (under (n, p.1))).map Prod.snd = p.2.walkUntil stop := by
      intro p hp
      rw [List.map_map, ← ih p.2 (mem_children_of_mem_branches hp)]
      rfl
    rw [routesUntil_eq, walkUntil_eq, ← map_snd_branches, List.flatMap_map, List.map_cons]
    cases stop n with
    | true => rfl
    | false =>
      simp only [Bool.false_eq_true, if_false, List.map_flatMap]
      rw [List.flatMap_congr deeper]

theorem mem_routesUntil_step {n m : Node} {route : Route} :
    (route, m) ∈ n.routesUntil stop ↔ route = [] ∧ m = n ∨
      stop n = false ∧ ∃ b c rest, (b, c) ∈ n.branches ∧ (rest, m) ∈ c.routesUntil stop ∧
        route = (n, b) :: rest := by
  rw [routesUntil_eq, List.mem_cons, Prod.mk.injEq]
  cases stop n with
  | true => simp
  | false =>
    simp only [Bool.false_eq_true, if_false, List.mem_flatMap, List.mem_map, under, true_and]
    constructor
    · rintro (same | ⟨⟨b, c⟩, member, ⟨rest, k⟩, reached, eq⟩)
      · exact .inl same
      · obtain ⟨rfl, rfl⟩ := Prod.mk.inj eq
        exact .inr ⟨b, c, rest, member, reached, rfl⟩
    · rintro (same | ⟨b, c, rest, member, reached, rfl⟩)
      · exact .inl same
      · exact .inr ⟨(b, c), member, (rest, m), reached, rfl⟩

end PugComponents.Node

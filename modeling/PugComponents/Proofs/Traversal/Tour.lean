import PugComponents.Proofs.Tree.Lineage
import PugComponents.Traversal.Rule

/-! The moments of a visit: every node of a tree is entered, then what is below it is toured, then it is
left. A tour enters the nodes in the order of a walk and leaves children before their parents, and what
happens below a node happens between the moments at which that node is entered and left. Nodes are told
apart by their places, since a tree may hold the same node more than once. -/

namespace PugComponents

/-- A place in a tree, from the root down: which child to take in every step. -/
abbrev Place := List Nat

structure Moment where
  phase : Phase
  place : Place
  node : Node
  parent : Option Node

/-- The moments at which a node is entered and left, with what happens in between. -/
def Moment.around (parent : Option Node) (place : Place) (n : Node) (inner : List Moment) : List Moment :=
  ⟨.enter, place, n, parent⟩ :: (inner ++ [⟨.leave, place, n, parent⟩])

namespace Node

def at? (root : Node) : Place → Option Node
  | [] => some root
  | i :: place => root.children[i]?.bind fun c => c.at? place

def parentAt? (root : Node) : Place → Option Node
  | [] => none
  | i :: place => root.at? (i :: place).dropLast

/-- The node and everything below it, children before parents and siblings in order. -/
def walkUp (n : Node) : List Node :=
  n.children.attach.flatMap (fun c => walkUp c.1) ++ [n]
termination_by sizeOf n
decreasing_by exact sizeOf_lt_of_mem_children c.2

def tourAt (parent : Option Node) (place : Place) (n : Node) : List Moment :=
  Moment.around parent place n
    (n.children.zipIdx.attach.flatMap fun c => tourAt (some n) (place ++ [c.1.2]) c.1.1)
termination_by sizeOf n
decreasing_by exact sizeOf_lt_of_mem_children (List.fst_mem_of_mem_zipIdx c.2)

def tour (root : Node) : List Moment := root.tourAt none []

/-- The moments of a visit to the children of a node, of which the first has the given number. -/
def tourAll (parent : Node) (place : Place) (first : Nat) (cs : List Node) : List Moment :=
  (cs.zipIdx first).flatMap fun c => tourAt (some parent) (place ++ [c.2]) c.1

theorem attach_flatMap {α β : Type} (as : List α) (f : α → List β) :
    (as.attach.flatMap fun a => f a.1) = as.flatMap f := by
  rw [← List.flatMap_map Subtype.val f, List.attach_map_subtype_val]

theorem walkUp_eq (n : Node) : n.walkUp = n.children.flatMap walkUp ++ [n] := by
  rw [walkUp, attach_flatMap _ walkUp]

theorem tourAt_eq (parent : Option Node) (place : Place) (n : Node) :
    n.tourAt parent place = Moment.around parent place n (tourAll n place 0 n.children) := by
  rw [tourAt, tourAll, attach_flatMap _ fun (c : Node × Nat) => tourAt (some n) (place ++ [c.2]) c.1]

@[simp] theorem tourAll_nil (parent : Node) (place : Place) (first : Nat) :
    tourAll parent place first [] = [] := rfl

theorem tourAll_cons (parent : Node) (place : Place) (first : Nat) (c : Node) (cs : List Node) :
    tourAll parent place first (c :: cs) =
      c.tourAt (some parent) (place ++ [first]) ++ tourAll parent place (first + 1) cs := by
  rw [tourAll, List.zipIdx_cons, List.flatMap_cons, tourAll]

theorem tourAll_append (parent : Node) (place : Place) (first : Nat) (cs ds : List Node) :
    tourAll parent place first (cs ++ ds) =
      tourAll parent place first cs ++ tourAll parent place (first + cs.length) ds := by
  rw [tourAll, List.zipIdx_append, List.flatMap_append, tourAll, tourAll]

theorem map_filter_tourAll {p : Moment → Bool} {f : Node → List Node} (parent : Node) (place : Place)
    (cs : List Node)
    (each : ∀ c ∈ cs, ∀ below, ((tourAt (some parent) below c).filter p).map Moment.node = f c)
      (first : Nat) :
    ((tourAll parent place first cs).filter p).map Moment.node = cs.flatMap f := by
  induction cs generalizing first with
  | nil => rfl
  | cons c cs ih =>
    rw [List.forall_mem_cons] at each
    rw [tourAll_cons, List.filter_append, List.map_append, each.1, ih each.2, List.flatMap_cons]

theorem map_filter_enter_tourAt (n : Node) (parent : Option Node) (place : Place) :
    ((n.tourAt parent place).filter (·.phase = .enter)).map Moment.node = n.walk := by
  induction n using childInduction generalizing parent place with
  | step n ih =>
    rw [tourAt_eq, Moment.around, walk_eq]
    simp [map_filter_tourAll n place n.children fun c hc => ih c hc (some n)]

theorem map_filter_leave_tourAt (n : Node) (parent : Option Node) (place : Place) :
    ((n.tourAt parent place).filter (·.phase = .leave)).map Moment.node = n.walkUp := by
  induction n using childInduction generalizing parent place with
  | step n ih =>
    rw [tourAt_eq, Moment.around, walkUp_eq]
    simp [map_filter_tourAll n place n.children fun c hc => ih c hc (some n)]

theorem mem_tourAll {parent : Node} {place : Place} {first : Nat} {cs : List Node} {e : Moment}
    (he : e ∈ tourAll parent place first cs) :
    ∃ i, ∃ c : Node, cs[i]? = some c ∧ e ∈ c.tourAt (some parent) (place ++ [first + i]) := by
  obtain ⟨⟨c, j⟩, member, he⟩ := List.mem_flatMap.1 he
  obtain ⟨le, found⟩ := List.mem_zipIdx_iff_le_and_getElem?_sub.1 member
  refine ⟨j - first, c, found, ?_⟩
  rwa [Nat.add_sub_cancel' le]

theorem parentAt?_cons {n c : Node} {i : Nat} (found : n.children[i]? = some c) (below : Place) :
    n.parentAt? (i :: below) = if below = [] then some n else c.parentAt? below := by
  cases below with
  | nil => rfl
  | cons j below => simp [parentAt?, at?, found]

theorem known_of_mem_tourAt {n : Node} {parent : Option Node} {place : Place} {e : Moment}
    (he : e ∈ n.tourAt parent place) :
    ∃ below, e.place = place ++ below ∧ n.at? below = some e.node ∧
      e.parent = if below = [] then parent else n.parentAt? below := by
  induction n using childInduction generalizing parent place with
  | step n ih =>
    have own : e.place = place ∧ e.node = n ∧ e.parent = parent ∨ e ∈ tourAll n place 0 n.children := by
      rw [tourAt_eq, Moment.around] at he
      simp only [List.mem_cons, List.mem_append, List.not_mem_nil, or_false] at he
      rcases he with rfl | he | rfl
      · exact .inl ⟨rfl, rfl, rfl⟩
      · exact .inr he
      · exact .inl ⟨rfl, rfl, rfl⟩
    rcases own with ⟨here, rfl, rfl⟩ | inner
    · exact ⟨[], by rw [here, List.append_nil], rfl, rfl⟩
    · obtain ⟨i, c, found, he⟩ := mem_tourAll inner
      obtain ⟨below, here, known, above⟩ := ih c (List.mem_of_getElem? found) he
      refine ⟨i :: below, ?_, ?_, ?_⟩
      · rw [here, Nat.zero_add, List.append_assoc, List.singleton_append]
      · rw [at?, found, Option.bind_some, known]
      · rw [above, if_neg (List.cons_ne_nil i below), parentAt?_cons found]

theorem place_of_mem_tourAll {parent : Node} {place : Place} {first : Nat} {cs : List Node} {e : Moment}
    (he : e ∈ tourAll parent place first cs) :
    ∃ i below, first ≤ i ∧ i < first + cs.length ∧ e.place = place ++ i :: below := by
  obtain ⟨i, c, found, he⟩ := mem_tourAll he
  obtain ⟨below, here, -⟩ := known_of_mem_tourAt he
  have lt := (List.getElem?_eq_some_iff.1 found).1
  refine ⟨first + i, below, by omega, by omega, ?_⟩
  rw [here, List.append_assoc, List.singleton_append]

theorem exists_split_tourAll {parent c : Node} {place : Place} {i : Nat} {cs : List Node}
    (found : cs[i]? = some c) : ∃ front back,
      tourAll parent place 0 cs = front ++ tourAt (some parent) (place ++ [i]) c ++ back ∧
        ∀ e ∈ front ++ back, ∃ j below, j ≠ i ∧ e.place = place ++ j :: below := by
  obtain ⟨lt, here⟩ := List.getElem?_eq_some_iff.1 found
  have split : cs = cs.take i ++ c :: cs.drop (i + 1) := by
    rw [← here, ← List.drop_eq_getElem_cons lt, List.take_append_drop]
  have size : (cs.take i).length = i := by simp [Nat.le_of_lt lt]
  refine ⟨tourAll parent place 0 (cs.take i), tourAll parent place (i + 1) (cs.drop (i + 1)), ?_, ?_⟩
  · conv_lhs => rw [split, tourAll_append, tourAll_cons, size, Nat.zero_add]
    rw [List.append_assoc]
  · intro e he
    rcases List.mem_append.1 he with he | he
    · obtain ⟨j, below, -, lt', at'⟩ := place_of_mem_tourAll he
      exact ⟨j, below, by omega, at'⟩
    · obtain ⟨j, below, le, -, at'⟩ := place_of_mem_tourAll he
      exact ⟨j, below, by omega, at'⟩

theorem not_prefix_of_ne {place below more : Place} {i j : Nat} (ne : j ≠ i) :
    ¬ place ++ i :: below <+: place ++ j :: more := by
  rw [List.prefix_append_right_inj, List.cons_prefix_cons]
  exact fun pre => ne pre.1.symm

theorem not_prefix_self (place below : Place) (i : Nat) : ¬ place ++ i :: below <+: place := by
  intro pre
  have le := pre.length_le
  rw [List.length_append, List.length_cons] at le
  omega

/-- The tour goes around every place once: what is below the place lies between the two moments of the
node there, and nothing before or after them is at the place or below it. -/
theorem exists_around_tourAt {n m : Node} {parent : Option Node} {place below : Place}
    (found : n.at? below = some m) :
    ∃ before inner after,
      n.tourAt parent place = before ++ Moment.around (if below = [] then parent else n.parentAt? below)
        (place ++ below) m inner ++ after ∧
      (∀ e ∈ inner, ∃ i more, e.place = place ++ below ++ i :: more) ∧
      ∀ e ∈ before ++ after, ¬ place ++ below <+: e.place := by
  induction below generalizing n parent place with
  | nil =>
    obtain rfl : n = m := Option.some.inj found
    refine ⟨[], tourAll n place 0 n.children, [], by simp [tourAt_eq], fun e he => ?_, by simp⟩
    obtain ⟨i, more, -, -, here⟩ := place_of_mem_tourAll he
    exact ⟨i, more, by rw [here, List.append_nil]⟩
  | cons i below ih =>
    obtain ⟨c, child, found⟩ := Option.bind_eq_some_iff.1 found
    obtain ⟨before, inner, after, eq, within, outside⟩ := @ih c (some n) (place ++ [i]) found
    have placed : place ++ [i] ++ below = place ++ i :: below := by simp
    rw [placed] at eq within outside
    obtain ⟨front, back, siblings, elsewhere⟩ := @exists_split_tourAll n c place i n.children child
    have whole : n.tourAt parent place = (⟨.enter, place, n, parent⟩ :: front ++ before) ++
        Moment.around (if i :: below = [] then parent else n.parentAt? (i :: below))
          (place ++ i :: below) m inner ++ (after ++ (back ++ [⟨.leave, place, n, parent⟩])) := by
      rw [tourAt_eq, siblings, eq, if_neg (List.cons_ne_nil i below), parentAt?_cons child, Moment.around]
      simp
    refine ⟨_, inner, _, whole, within, fun e he => ?_⟩
    simp only [List.mem_append, List.mem_cons, List.not_mem_nil, or_false] at he
    have aside : e ∈ front ++ back → ¬ place ++ i :: below <+: e.place := by
      intro he
      obtain ⟨j, more, ne, here⟩ := elsewhere e he
      rw [here]
      exact not_prefix_of_ne ne
    rcases he with ((rfl | he) | he) | he | he | rfl
    · exact not_prefix_self place below i
    · exact aside (List.mem_append_left _ he)
    · exact outside e (List.mem_append_left _ he)
    · exact outside e (List.mem_append_right _ he)
    · exact aside (List.mem_append_right _ he)
    · exact not_prefix_self place below i

/-- What makes a list of moments a tour of a tree. -/
structure IsTour (root : Node) (moments : List Moment) : Prop where
  /-- Nodes are entered in the order of the walk. -/
  entered : (moments.filter (·.phase = .enter)).map Moment.node = root.walk
  /-- Nodes are left children first. -/
  left : (moments.filter (·.phase = .leave)).map Moment.node = root.walkUp
  /-- A moment belongs to the node at its place, and names the direct parent. -/
  known : ∀ e ∈ moments, root.at? e.place = some e.node ∧ e.parent = root.parentAt? e.place
  /-- The node at a place is entered and left once, and what is below it is visited in between. -/
  nested : ∀ place n, root.at? place = some n → ∃ before inner after,
    moments = before ++ Moment.around (root.parentAt? place) place n inner ++ after ∧
      (∀ e ∈ inner, ∃ i below, e.place = place ++ i :: below) ∧
      ∀ e ∈ before ++ after, ¬ place <+: e.place

theorem isTour_tour (root : Node) : root.IsTour root.tour where
  entered := map_filter_enter_tourAt root none []
  left := map_filter_leave_tourAt root none []
  known e he := by
    obtain ⟨below, here, known, above⟩ := known_of_mem_tourAt he
    rw [List.nil_append] at here
    rw [here, known, above]
    cases below <;> exact ⟨rfl, rfl⟩
  nested place n found := by
    have parent : (if place = [] then none else root.parentAt? place) = root.parentAt? place := by
      cases place <;> rfl
    simpa only [parent, List.nil_append, tour] using @exists_around_tourAt root n none [] place found

end Node

end PugComponents

import PugComponents.Proofs.Tree.Vocabulary
import Mathlib.Data.List.Forall2

/-! Nodes that are rebuilt around their children. Every pass over a tree puts a list of nodes in the
place of each node of a block, and one node in the place of any other child; the node itself keeps its
kind and all that it records. `Rebuilt` says so for one node, and what a pass does to a whole tree
follows by induction on the children. -/

namespace PugComponents

section Lists

variable {α β : Type} {R : α → β → Prop} {as : List α} {bs : List β}

theorem exists_of_forall₂_left (h : List.Forall₂ R as bs) {a : α} (ha : a ∈ as) :
    ∃ b ∈ bs, R a b := by
  induction h with
  | nil => simp at ha
  | cons first _ ih =>
    rcases List.mem_cons.1 ha with rfl | ha
    · exact ⟨_, by simp, first⟩
    · obtain ⟨b, hb, related⟩ := ih ha
      exact ⟨b, List.mem_cons_of_mem _ hb, related⟩

theorem exists_of_forall₂_right (h : List.Forall₂ R as bs) {b : β} (hb : b ∈ bs) :
    ∃ a ∈ as, R a b := by
  obtain ⟨a, ha, related⟩ := exists_of_forall₂_left h.flip hb
  exact ⟨a, ha, related⟩

theorem exists_split_of_forall₂ {as' : List α} (h : List.Forall₂ R (as ++ as') bs) :
    ∃ front back, bs = front ++ back ∧ List.Forall₂ R as front ∧ List.Forall₂ R as' back := by
  refine ⟨bs.take as.length, bs.drop as.length, (List.take_append_drop _ _).symm, ?_, ?_⟩
  · simpa using List.forall₂_take as.length h
  · simpa using List.forall₂_drop as.length h

end Lists

namespace Node

def isBlock : Node → Bool
  | .seq .. => true
  | _ => false

theorem tag?_of_isBlock {n : Node} (isBlock : n.isBlock = true) : n.tag? = none := by
  cases n with
  | owner => cases isBlock
  | _ => rfl

theorem exists_seq_of_isBlock {n : Node} (isBlock : n.isBlock = true) :
    ∃ pos head nodes, n = .seq pos head nodes := by
  cases n with
  | seq pos head nodes => exact ⟨pos, head, nodes, rfl⟩
  | _ => cases isBlock

theorem nodes?_of_isBlock {n : Node} (isBlock : n.isBlock = true) : n.nodes? = some n.children := by
  cases n with
  | seq => rfl
  | _ => cases isBlock

theorem isBlock_eq_false_of_isSlot {n : Node} (isSlot : n.isSlot = true) : n.isBlock = false := by
  by_contra isBlock
  rw [isSlot_eq_false_of_tag? (tag?_of_isBlock (by simpa using isBlock))] at isSlot
  cases isSlot

def bareFile : Option Node → Option Node
  | some (.fileReference pos path fullPath _) => some (.fileReference pos path fullPath none)
  | file => file

def bare : Node → Node
  | .leaf pos head => .leaf pos head
  | .seq pos head _ => .seq pos head []
  | .owner pos head _ => .owner pos head none
  | .fork pos head _ _ => .fork pos head none none
  | .inclusion pos file block => .inclusion pos (bareFile file) block
  | .extension pos file => .extension pos (bareFile file)
  | .rawInclusion pos file filters => .rawInclusion pos file filters
  | .fileReference pos path fullPath ast => .fileReference pos path fullPath ast

@[simp] theorem tag?_bare (n : Node) : n.bare.tag? = n.tag? := by
  cases n with
  | owner pos head block => cases head <;> rfl
  | _ => rfl

theorem tag?_eq_of_bare_eq {n n' : Node} (h : n'.bare = n.bare) : n'.tag? = n.tag? := by
  rw [← tag?_bare, h, tag?_bare]

inductive RebuiltFile (R : Node → Node → Prop) : Option Node → Option Node → Prop where
  | none : RebuiltFile R none none
  | some (pos : Position) (path fullPath : Json) {ast ast' : Option Node}
    (child : Option.Rel R ast ast') :
    RebuiltFile R (some (.fileReference pos path fullPath ast))
      (some (.fileReference pos path fullPath ast'))

/-- A node with other children: `P` relates the nodes of a block to the lists that take their places,
and `R` all other children to theirs. -/
inductive Rebuilt (P : Node → List Node → Prop) (R : Node → Node → Prop) : Node → Node → Prop where
  | leaf (pos : Position) (head : Leaf) : Rebuilt P R (.leaf pos head) (.leaf pos head)
  | seq (pos : Position) (head : Sequence) {nodes : List Node} {parts : List (List Node)}
    (pieces : List.Forall₂ P nodes parts) :
    Rebuilt P R (.seq pos head nodes) (.seq pos head parts.flatten)
  | owner (pos : Position) (head : Owner) {block block' : Option Node}
    (child : Option.Rel R block block') :
    Rebuilt P R (.owner pos head block) (.owner pos head block')
  | fork (pos : Position) (head : Fork) {main main' alternate alternate' : Option Node}
    (first : Option.Rel R main main') (second : Option.Rel R alternate alternate') :
    Rebuilt P R (.fork pos head main alternate) (.fork pos head main' alternate')
  | inclusion (pos : Position) (block : Option Node) {file file' : Option Node}
    (tree : RebuiltFile R file file') :
    Rebuilt P R (.inclusion pos file block) (.inclusion pos file' block)
  | extension (pos : Position) {file file' : Option Node} (tree : RebuiltFile R file file') :
    Rebuilt P R (.extension pos file) (.extension pos file')
  | rawInclusion (pos : Position) (file : Option Node) (filters : Json) :
    Rebuilt P R (.rawInclusion pos file filters) (.rawInclusion pos file filters)
  | fileReference (pos : Position) (path fullPath : Json) (ast : Option Node) :
    Rebuilt P R (.fileReference pos path fullPath ast) (.fileReference pos path fullPath ast)

theorem rel_self {R : Node → Node → Prop} {o : Option Node} (each : ∀ c ∈ o, R c c) : Option.Rel R o o := by
  cases o with
  | none => exact .none
  | some c => exact .some (each c rfl)

namespace Rebuilt

variable {P : Node → List Node → Prop} {R : Node → Node → Prop} {n n' : Node}

theorem bare_eq (h : Rebuilt P R n n') : n'.bare = n.bare := by
  cases h with
  | inclusion pos block tree => cases tree <;> rfl
  | extension pos tree => cases tree <;> rfl
  | _ => rfl

theorem tag?_eq (h : Rebuilt P R n n') : n'.tag? = n.tag? := tag?_eq_of_bare_eq h.bare_eq

theorem refl (filed : n.isMisfiled = false) (listed : ∀ c ∈ n.children, P c [c])
    (single : ∀ c ∈ n.children, R c c) : Rebuilt P R n n := by
  cases n with
  | leaf pos head => exact .leaf pos head
  | seq pos head nodes =>
    have pieces : List.Forall₂ P nodes (nodes.map fun c => [c]) :=
      List.forall₂_map_right_iff.2 (List.forall₂_same.2 listed)
    have built : Rebuilt P R (.seq pos head nodes) (.seq pos head (nodes.map fun c => [c]).flatten) :=
      .seq pos head pieces
    rwa [← List.flatMap_def, List.flatMap_singleton'] at built
  | owner pos head block => exact .owner pos head (rel_self fun c hc => single c (Option.mem_toList.2 hc))
  | fork pos head main alternate =>
    simp only [children, List.mem_append, Option.mem_toList] at single
    exact .fork pos head (rel_self fun c hc => single c (.inl hc)) (rel_self fun c hc => single c (.inr hc))
  | inclusion pos file block =>
    refine .inclusion pos block ?_
    cases file with
    | none => exact .none
    | some m =>
      cases m with
      | fileReference filePos path fullPath ast =>
        exact .some filePos path fullPath (rel_self fun c hc => single c (Option.mem_toList.2 hc))
      | _ => cases filed
  | extension pos file =>
    refine .extension pos ?_
    cases file with
    | none => exact .none
    | some m =>
      cases m with
      | fileReference filePos path fullPath ast =>
        exact .some filePos path fullPath (rel_self fun c hc => single c (Option.mem_toList.2 hc))
      | _ => cases filed
  | rawInclusion pos file filters => exact .rawInclusion pos file filters
  | fileReference pos path fullPath ast => exact .fileReference pos path fullPath ast

end Rebuilt

/-- What takes the place of a child of `n`: a list of nodes in a block, and one node elsewhere. -/
inductive Piece (P : Node → List Node → Prop) (R : Node → Node → Prop) (n c : Node) :
    List Node → Prop where
  | listed {part : List Node} (isBlock : n.isBlock = true) (related : P c part) : Piece P R n c part
  | single {c' : Node} (notBlock : n.isBlock = false) (related : R c c') : Piece P R n c [c']

section Pieces

variable {P : Node → List Node → Prop} {R : Node → Node → Prop} {n : Node}

theorem pieces_of_rel (notBlock : n.isBlock = false) {o o' : Option Node} (h : Option.Rel R o o') :
    ∃ parts, List.Forall₂ (Piece P R n) o.toList parts ∧ o'.toList = parts.flatten := by
  cases h with
  | none => exact ⟨[], .nil, rfl⟩
  | some related => exact ⟨[[_]], .cons (.single notBlock related) .nil, rfl⟩

theorem pieces_of_file (notBlock : n.isBlock = false) {file file' : Option Node}
    (h : RebuiltFile R file file') :
    ∃ parts, List.Forall₂ (Piece P R n) (ast? file).toList parts ∧
      (ast? file').toList = parts.flatten := by
  cases h with
  | none => exact ⟨[], .nil, rfl⟩
  | some pos path fullPath child => exact pieces_of_rel notBlock child

theorem rel_imp {R' : Node → Node → Prop} {o o' : Option Node} (h : Option.Rel R o o')
    (imp : ∀ c ∈ o, ∀ c', R c c' → R' c c') : Option.Rel R' o o' := by
  cases h with
  | none => exact .none
  | some related => exact .some (imp _ rfl _ related)

theorem RebuiltFile.imp {R' : Node → Node → Prop} {file file' : Option Node}
    (h : RebuiltFile R file file') (imp : ∀ c ∈ ast? file, ∀ c', R c c' → R' c c') :
    RebuiltFile R' file file' := by
  cases h with
  | none => exact .none
  | some pos path fullPath child => exact .some pos path fullPath (rel_imp child imp)

theorem eq_of_rel_self {o o' : Option Node} (h : Option.Rel R o o')
    (single : ∀ c ∈ o, ∀ c', R c c' → c' = c) : o' = o := by
  cases h with
  | none => rfl
  | some related => rw [single _ rfl _ related]

theorem eq_of_rebuiltFile_self {file file' : Option Node} (h : RebuiltFile R file file')
    (single : ∀ c ∈ ast? file, ∀ c', R c c' → c' = c) : file' = file := by
  cases h with
  | none => rfl
  | some pos path fullPath child => rw [eq_of_rel_self child single]

theorem flatten_eq_of_forall₂_self {nodes : List Node} {parts : List (List Node)}
    (h : List.Forall₂ P nodes parts) (listed : ∀ c ∈ nodes, ∀ part, P c part → part = [c]) :
    parts.flatten = nodes := by
  induction h with
  | nil => rfl
  | cons first _ ih =>
    rw [List.forall_mem_cons] at listed
    rw [List.flatten_cons, listed.1 _ first, ih listed.2, List.singleton_append]

end Pieces

namespace Rebuilt

variable {P P' : Node → List Node → Prop} {R R' : Node → Node → Prop} {n n' : Node}

theorem imp (h : Rebuilt P R n n') (listed : ∀ c ∈ n.children, ∀ part, P c part → P' c part)
    (single : ∀ c ∈ n.children, ∀ c', R c c' → R' c c') : Rebuilt P' R' n n' := by
  cases h with
  | leaf => exact .leaf ..
  | @seq pos head nodes parts pieces =>
    refine .seq pos head ?_
    have members := (List.forall₂_and_left _ _).2 ⟨fun c (hc : c ∈ nodes) => hc, pieces⟩
    exact members.imp fun c part ⟨hc, related⟩ => listed c hc part related
  | owner pos head child =>
    exact .owner pos head (rel_imp child fun c hc => single c (Option.mem_toList.2 hc))
  | fork pos head first second =>
    simp only [children, List.mem_append, Option.mem_toList] at single
    exact .fork pos head (rel_imp first fun c hc => single c (.inl hc))
      (rel_imp second fun c hc => single c (.inr hc))
  | inclusion pos block tree =>
    exact .inclusion pos block (tree.imp fun c hc => single c (Option.mem_toList.2 hc))
  | extension pos tree =>
    exact .extension pos (tree.imp fun c hc => single c (Option.mem_toList.2 hc))
  | rawInclusion => exact .rawInclusion ..
  | fileReference => exact .fileReference ..

theorem children_eq (h : Rebuilt P R n n') :
    ∃ parts, List.Forall₂ (Piece P R n) n.children parts ∧ n'.children = parts.flatten := by
  cases h with
  | leaf => exact ⟨[], .nil, rfl⟩
  | seq pos head pieces => exact ⟨_, pieces.imp fun _ _ => .listed rfl, rfl⟩
  | owner pos head child => exact pieces_of_rel rfl child
  | @fork pos head main main' alternate alternate' first second =>
    have notBlock : (Node.fork pos head main alternate).isBlock = false := rfl
    obtain ⟨parts, related, eq⟩ := pieces_of_rel (P := P) notBlock first
    obtain ⟨parts', related', eq'⟩ := pieces_of_rel (P := P) notBlock second
    exact ⟨parts ++ parts', List.rel_append related related', by simp [children, eq, eq']⟩
  | inclusion pos block tree => exact pieces_of_file rfl tree
  | extension pos tree => exact pieces_of_file rfl tree
  | rawInclusion => exact ⟨[], .nil, rfl⟩
  | fileReference => exact ⟨[], .nil, rfl⟩

theorem exists_piece_of_mem (h : Rebuilt P R n n') {m : Node} (hm : m ∈ n'.children) :
    ∃ c ∈ n.children, ∃ part, Piece P R n c part ∧ m ∈ part := by
  obtain ⟨parts, related, eq⟩ := h.children_eq
  rw [eq, List.mem_flatten] at hm
  obtain ⟨part, hpart, hm⟩ := hm
  obtain ⟨c, hc, piece⟩ := exists_of_forall₂_right related hpart
  exact ⟨c, hc, part, piece, hm⟩

theorem exists_piece_subset (h : Rebuilt P R n n') {c : Node} (hc : c ∈ n.children) :
    ∃ part, Piece P R n c part ∧ part ⊆ n'.children := by
  obtain ⟨parts, related, eq⟩ := h.children_eq
  obtain ⟨part, hpart, piece⟩ := exists_of_forall₂_left related hc
  exact ⟨part, piece, fun m hm => eq ▸ List.mem_flatten.2 ⟨part, hpart, hm⟩⟩

theorem flatMap_children {β : Type} {f g : Node → List β} (h : Rebuilt P R n n')
    (pieces : ∀ c ∈ n.children, ∀ part, Piece P R n c part → part.flatMap f = g c) :
    n'.children.flatMap f = n.children.flatMap g := by
  obtain ⟨parts, related, eq⟩ := h.children_eq
  rw [eq]
  clear eq
  -- The node stays as it is while the list of its children is taken apart.
  generalize n.children = cs at related pieces
  induction related with
  | nil => rfl
  | @cons c part cs parts first _ ih =>
    rw [List.flatten_cons, List.flatMap_append, List.flatMap_cons,
      pieces c (by simp) part first, ih fun c hc => pieces c (List.mem_cons_of_mem _ hc)]

theorem eq_self (h : Rebuilt P R n n')
    (listed : n.isBlock = true → ∀ c ∈ n.children, ∀ part, P c part → part = [c])
    (single : ∀ c ∈ n.children, ∀ c', R c c' → c' = c) : n' = n := by
  cases h with
  | leaf => rfl
  | seq pos head pieces => rw [flatten_eq_of_forall₂_self pieces (listed rfl)]
  | owner pos head child =>
    rw [eq_of_rel_self child fun c hc => single c (Option.mem_toList.2 hc)]
  | fork pos head first second =>
    simp only [children, List.mem_append, Option.mem_toList] at single
    rw [eq_of_rel_self first fun c hc => single c (.inl hc),
      eq_of_rel_self second fun c hc => single c (.inr hc)]
  | inclusion pos block tree =>
    rw [eq_of_rebuiltFile_self tree fun c hc => single c (Option.mem_toList.2 hc)]
  | extension pos tree =>
    rw [eq_of_rebuiltFile_self tree fun c hc => single c (Option.mem_toList.2 hc)]
  | rawInclusion => rfl
  | fileReference => rfl

end Rebuilt

/-- A property that passes on to the children of a node, and that a node keeps if it is given other
children that have it. -/
structure Inherited (Q : Node → Prop) : Prop where
  child : ∀ {n c : Node}, Q n → c ∈ n.children → Q c
  rebuilt : ∀ {n n' : Node}, Q n → n'.bare = n.bare → (∀ c ∈ n'.children, Q c) → Q n'

theorem Inherited.of_rebuilt {Q : Node → Prop} (inherited : Inherited Q)
    {P : Node → List Node → Prop} {R : Node → Node → Prop} {n n' : Node} (h : Rebuilt P R n n')
    (listed : ∀ c part, P c part → Q c → ∀ m ∈ part, Q m) (single : ∀ c c', R c c' → Q c → Q c')
    (holds : Q n) : Q n' := by
  refine inherited.rebuilt holds h.bare_eq fun m hm => ?_
  obtain ⟨c, hc, part, piece, hm⟩ := h.exists_piece_of_mem hm
  have below := inherited.child holds hc
  cases piece with
  | listed _ related => exact listed c part related below m hm
  | @single c' _ related => exact List.mem_singleton.1 hm ▸ single c c' related below

theorem inherited_lacks {p : Node → Bool} (byTag : ∀ n n' : Node, n'.tag? = n.tag? → p n' = p n) :
    Inherited (Lacks p) where
  child h hc := h.of_mem_children hc
  rebuilt h bare_eq below :=
    lacks_iff.2 ⟨(byTag _ _ (tag?_eq_of_bare_eq bare_eq)).trans (lacks_iff.1 h).1, below⟩

end Node

end PugComponents

import PugComponents.Proofs.Tree.Rebuilt

/-! Where the tags of a tree come from. What is made of a page repeats its tags: every tag has the place
and the name of a tag of the page, whatever became of its attributes and of the nodes below it. -/

namespace PugComponents.Node

def mark? (n : Node) : Option (Position × Json) := n.label?.map fun label => (n.pos, label)

theorem mark?_eq_some_iff {n : Node} {pos : Position} {label : Json} :
    n.mark? = some (pos, label) ↔ n.pos = pos ∧ n.label? = some label := by
  simp only [mark?, Option.map_eq_some_iff, Prod.mk.injEq]
  constructor
  · rintro ⟨_, found, same, rfl⟩
    exact ⟨same, found⟩
  · rintro ⟨same, found⟩
    exact ⟨label, found, same, rfl⟩

theorem mark?_eq_of_label?_eq {n n' : Node} (label : n'.label? = n.label?) (pos : n'.pos = n.pos) :
    n'.mark? = n.mark? := by
  rw [mark?, label, pos, mark?]

theorem mark?_eq_none_of_tag? {n : Node} (h : n.tag? = none) : n.mark? = none := by
  simp [mark?, label?, h]

theorem pos_bare (n : Node) : n.bare.pos = n.pos := by cases n <;> rfl

theorem mark?_eq_of_bare_eq {n n' : Node} (h : n'.bare = n.bare) : n'.mark? = n.mark? := by
  refine mark?_eq_of_label?_eq (label?_eq_of_tag?_eq (tag?_eq_of_bare_eq h)) ?_
  rw [← pos_bare, h, pos_bare]

/-- Every tag at or below the node has the place and the name of a tag of the page. -/
def StemsFrom (page n : Node) : Prop :=
  ∀ m ∈ n.walk, ∀ mark, m.mark? = some mark → ∃ origin ∈ page.walk, origin.mark? = some mark

variable {page n n' : Node}

theorem stemsFrom_self (page : Node) : page.StemsFrom page := fun m hm _ found => ⟨m, hm, found⟩

theorem StemsFrom.of_mem_walk (h : page.StemsFrom n) {m : Node} (hm : m ∈ n.walk) :
    page.StemsFrom m :=
  fun k hk => h k (mem_walk_trans hk hm)

theorem StemsFrom.of_mem_children (h : page.StemsFrom n) {c : Node} (hc : c ∈ n.children) :
    page.StemsFrom c :=
  fun m hm => h m (mem_walk_of_mem_children hc hm)

theorem stemsFrom_of_children
    (self : ∀ mark, n.mark? = some mark → ∃ origin ∈ page.walk, origin.mark? = some mark)
    (below : ∀ c ∈ n.children, page.StemsFrom c) : page.StemsFrom n := by
  intro m hm
  rcases mem_walk_iff.1 hm with rfl | ⟨c, hc, hm⟩
  · exact self
  · exact below c hc m hm

theorem stemsFrom_of_mark?_eq (h : page.StemsFrom n) (same : n'.mark? = n.mark?)
    (below : ∀ c ∈ n'.children, page.StemsFrom c) : page.StemsFrom n' :=
  stemsFrom_of_children (fun mark found => h n (self_mem_walk n) mark (same ▸ found)) below

theorem inherited_stemsFrom (page : Node) : Inherited page.StemsFrom where
  child h hc := h.of_mem_children hc
  rebuilt h bare_eq below := stemsFrom_of_mark?_eq h (mark?_eq_of_bare_eq bare_eq) below

theorem stemsFrom_of_untagged (untagged : n.tag? = none)
    (below : ∀ c ∈ n.children, page.StemsFrom c) : page.StemsFrom n := by
  refine stemsFrom_of_children ?_ below
  simp [mark?_eq_none_of_tag? untagged]

theorem stemsFrom_block {pos : Position} {nodes : List Node} (each : ∀ n ∈ nodes, page.StemsFrom n) :
    page.StemsFrom (block pos nodes) :=
  stemsFrom_of_untagged rfl each

end PugComponents.Node

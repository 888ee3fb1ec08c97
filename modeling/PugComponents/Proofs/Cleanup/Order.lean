import PugComponents.Proofs.Cleanup.Flattening
import PugComponents.Proofs.Cleanup.Removal

/-! What the two passes keep of a tree, in order. Flattening takes away what only holds other nodes
together: plain blocks, and the nodes that a file stands behind. All other nodes are met in the same
order as before, each with all that it records besides its children. The removal of definitions takes
away the definitions and all that stands below them, and nothing else. -/

namespace PugComponents.Node

/-- A node that holds others together and may give way to them: a plain block, or a node of which the
file is resolved. -/
def isWrapper (n : Node) : Bool := n.isPlainBlock || n.isResolved

/-- The nodes of a tree but its wrappers, as they are met on a walk, each without its children. -/
def heads (n : Node) : List Node := (n.walk.filter fun m => !m.isWrapper).map bare

/-- The same for the nodes that are no definitions and stand below none. -/
def headsOutside (n : Node) : List Node :=
  ((n.walkUntil isDefinition).filter fun m => !m.isDefinition && !m.isWrapper).map bare

def ownHead (n : Node) : List Node := if n.isWrapper then [] else [n.bare]

theorem heads_eq (n : Node) : n.heads = n.ownHead ++ n.children.flatMap heads := by
  rw [heads, walk_eq, List.filter_cons, ownHead]
  have below : ((n.children.flatMap walk).filter fun m => !m.isWrapper).map bare =
      n.children.flatMap heads := by
    rw [List.filter_flatMap, List.map_flatMap]
    rfl
  cases n.isWrapper <;> simp [below]

theorem headsOutside_of_isDefinition {n : Node} (isDefinition : n.isDefinition = true) :
    n.headsOutside = [] := by
  rw [headsOutside, walkUntil_eq, isDefinition, if_pos rfl]
  simp [isDefinition]

theorem headsOutside_eq {n : Node} (notDefinition : n.isDefinition = false) :
    n.headsOutside = n.ownHead ++ n.children.flatMap headsOutside := by
  rw [headsOutside, walkUntil_eq, notDefinition, if_neg Bool.false_ne_true, List.filter_cons, ownHead,
    notDefinition]
  have below : ((n.children.flatMap (walkUntil isDefinition)).filter fun m =>
      !m.isDefinition && !m.isWrapper).map bare = n.children.flatMap headsOutside := by
    rw [List.filter_flatMap, List.map_flatMap]
    rfl
  cases n.isWrapper <;> simp [below]

theorem flatMap_heads_spliced (n : Node) : n.spliced.flatMap heads = n.heads := by
  rcases spliced_cases n with ⟨plain, eq⟩ | ⟨-, eq⟩
  · rw [eq, heads_eq n, ownHead, isWrapper, plain, Bool.true_or, if_pos rfl, List.nil_append]
  · rw [eq, List.flatMap_singleton]

theorem isPlainBlock_bare (n : Node) : n.bare.isPlainBlock = n.isPlainBlock := by
  cases n with
  | seq pos head nodes => cases head <;> rfl
  | _ => rfl

theorem isPlainBlock_eq_of_bare_eq {n n' : Node} (h : n'.bare = n.bare) :
    n'.isPlainBlock = n.isPlainBlock := by
  rw [← isPlainBlock_bare, h, isPlainBlock_bare]

theorem ownHead_eq_of_rebuilt {P : Node → List Node → Prop} {R : Node → Node → Prop} {n n' : Node}
    (h : Rebuilt P R n n') : n'.ownHead = n.ownHead := by
  rw [ownHead, ownHead, isWrapper, isWrapper, isPlainBlock_eq_of_bare_eq h.bare_eq,
    isResolved_eq_of_rebuilt h, h.bare_eq]

theorem heads_of_flattenNode {n n' : Node} (wf : n.isWellFormed = true)
    (h : flattenNode false n = .ok n') : n'.heads = n.heads := by
  refine flatten_induction (N := fun n n' => n'.heads = n.heads) ?_ ?_ wf h
  · intro n ast n' isResolved child ih
    rw [heads_eq n, ownHead, isWrapper, isResolved, Bool.or_true, if_pos rfl, child,
      List.flatMap_singleton, List.nil_append, ih]
  · intro n n' _ _ built
    rw [heads_eq n', heads_eq n, ownHead_eq_of_rebuilt built]
    congr 1
    refine built.flatMap_children fun c _ part piece => ?_
    cases piece with
    | listed _ related =>
      obtain ⟨c', related, rfl⟩ := related
      rw [flatMap_heads_spliced, related]
    | single _ related => rw [List.flatMap_singleton, related]

theorem heads_of_withoutDefinitions {n n' : Node} (wf : n.isWellFormed = true)
    (h : withoutDefinitions n = .ok (some n')) : n'.heads = n.headsOutside := by
  refine remove_induction (N := fun n n' => n'.heads = n.headsOutside) ?_ wf h
  intro n n' _ notDefinition built
  rw [heads_eq n', headsOutside_eq notDefinition, ownHead_eq_of_rebuilt built]
  congr 1
  refine built.flatMap_children fun c _ part piece => ?_
  cases piece with
  | listed _ related =>
    cases related with
    | dropped isDefinition => rw [headsOutside_of_isDefinition isDefinition, List.flatMap_nil]
    | kept related => rw [List.flatMap_singleton, related]
  | single _ related => rw [List.flatMap_singleton, related]

end PugComponents.Node

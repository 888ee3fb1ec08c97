import PugComponents.Proofs.Cleanup.Flattening
import PugComponents.Proofs.Cleanup.Removal
import PugComponents.Proofs.Expansion.Tree

/-! The slots that stand outside of certain nodes, listed in walk order without what is below them. No
pass over a tree changes this list, if the nodes that it replaces are among those, and if what it puts
in their places has no slots. -/

namespace PugComponents.Node

/-- The slots that do not stand below a node that passes the test. -/
def slotsUntil (stop : Node → Bool) (n : Node) : List Node :=
  ((n.walkUntil stop).filter isSlot).map bare

section Lists

variable {stop : Node → Bool} {n n' : Node}

theorem slotsUntil_eq (stop : Node → Bool) (n : Node) :
    n.slotsUntil stop = (if n.isSlot then [n.bare] else []) ++
      if stop n then [] else n.children.flatMap (slotsUntil stop) := by
  rw [slotsUntil, walkUntil_eq, List.filter_cons]
  have below : ((n.children.flatMap (walkUntil stop)).filter isSlot).map bare =
      n.children.flatMap (slotsUntil stop) := by
    rw [List.filter_flatMap, List.map_flatMap]
    rfl
  cases n.isSlot <;> cases stop n <;> simp [below]

theorem slotsUntil_eq_nil_of_stop (notSlot : n.isSlot = false) (stopped : stop n = true) :
    n.slotsUntil stop = [] := by
  rw [slotsUntil_eq, notSlot, stopped]
  rfl

theorem slotsUntil_of_children (notSlot : n.isSlot = false) (free : stop n = false) :
    n.slotsUntil stop = n.children.flatMap (slotsUntil stop) := by
  rw [slotsUntil_eq, notSlot, free]
  rfl

theorem slotsUntil_eq_nil_iff :
    n.slotsUntil stop = [] ↔ ∀ m ∈ n.walkUntil stop, m.isSlot = false := by
  simp [slotsUntil]

theorem slotsUntil_eq_nil_of_lacks (h : n.Lacks isSlot) : n.slotsUntil stop = [] :=
  slotsUntil_eq_nil_iff.2 fun m hm => h m (mem_walk_of_mem_walkUntil hm)

theorem slotsUntil_of_rebuilt {P : Node → List Node → Prop} {R : Node → Node → Prop}
    (built : Rebuilt P R n n') (byTag : stop n' = stop n)
    (pieces : ∀ c ∈ n.children, ∀ part, Piece P R n c part →
      part.flatMap (slotsUntil stop) = c.slotsUntil stop) :
    n'.slotsUntil stop = n.slotsUntil stop := by
  rw [slotsUntil_eq, slotsUntil_eq stop n, isSlot_eq_of_tag?_eq built.tag?_eq, built.bare_eq, byTag,
    built.flatMap_children pieces]

end Lists

section Passes

variable {stop : Node → Bool} (byTag : ∀ n n' : Node, n'.tag? = n.tag? → stop n' = stop n)
include byTag

theorem slotsUntil_both_of_expand {call : Node → Recorded (List Node)}
    (calls : ∀ n : Node, n.isCall = true → stop n = true) (settled : CallsReturn Settled call)
    (slotless : CallsReturn (Lacks isSlot) call) (n : Node) :
    (∀ n', (expandNode call n).result = .ok n' → n.isWellFormed = true →
      n'.slotsUntil stop = n.slotsUntil stop) ∧
    ∀ part, Expanded call n part → n.isWellFormed = true →
      part.flatMap (slotsUntil stop) = n.slotsUntil stop := by
  revert n
  apply expand_induction
  case rebuilt =>
    intro n n' built wf
    refine slotsUntil_of_rebuilt built (byTag n n' built.tag?_eq) ?_
    intro c hc part piece
    have wfc := isWellFormed_of_mem_children wf hc
    cases piece with
    | listed _ related => exact related wfc
    | single _ related =>
      rw [List.flatMap_singleton]
      exact related.2 wfc
  case called =>
    intro n n' part isCall run _ returned wf
    have notSlot : n.isSlot = false := isSlot_eq_false_of_isCall isCall
    have ready := isReady_of_expandNode settled wf isCall run
    have none : ∀ k ∈ part, k.slotsUntil stop = [] :=
      fun k hk => slotsUntil_eq_nil_of_lacks (slotless n' part ready returned k hk)
    rw [slotsUntil_eq_nil_of_stop notSlot (calls n isCall)]
    exact List.flatMap_eq_nil_iff.2 none
  case kept =>
    intro n n' _ _ ih wf
    rw [List.flatMap_singleton]
    exact ih wf

theorem slotsUntil_of_withoutDefinitions
    (definitions : ∀ n : Node, n.isDefinition = true → stop n = true) {n n' : Node}
    (wf : n.isWellFormed = true) (h : withoutDefinitions n = .ok (some n')) :
    n'.slotsUntil stop = n.slotsUntil stop := by
  refine remove_induction (N := fun n n' => n'.slotsUntil stop = n.slotsUntil stop) ?_ wf h
  intro n n' _ _ built
  refine slotsUntil_of_rebuilt built (byTag n n' built.tag?_eq) ?_
  intro c hc part piece
  cases piece with
  | single _ related => rwa [List.flatMap_singleton]
  | listed _ related =>
    cases related with
    | dropped isDefinition =>
      rw [slotsUntil_eq_nil_of_stop (isSlot_eq_false_of_isDefinition isDefinition)
        (definitions c isDefinition)]
      rfl
    | kept related => rwa [List.flatMap_singleton]

theorem slotsUntil_of_flattenNode (tags : ∀ n : Node, n.tag? = none → stop n = false) {n n' : Node}
    (wf : n.isWellFormed = true) (h : flattenNode false n = .ok n') :
    n'.slotsUntil stop = n.slotsUntil stop := by
  refine flatten_induction (N := fun n n' => n'.slotsUntil stop = n.slotsUntil stop) ?_ ?_ wf h
  · intro n ast n' isResolved child ih
    have untagged : n.tag? = none := by
      cases n with
      | owner => cases isResolved
      | _ => rfl
    rw [slotsUntil_of_children (isSlot_eq_false_of_tag? untagged) (tags n untagged), child,
      List.flatMap_singleton, ih]
  · intro n n' _ _ built
    refine slotsUntil_of_rebuilt built (byTag n n' built.tag?_eq) ?_
    intro c hc part piece
    cases piece with
    | single _ related => rwa [List.flatMap_singleton]
    | listed _ related =>
      obtain ⟨c', related, rfl⟩ := related
      rw [← related]
      rcases spliced_cases c' with ⟨plain, eq⟩ | ⟨-, eq⟩
      · have untagged : c'.tag? = none := tag?_of_isBlock (isBlock_of_isPlainBlock plain)
        rw [eq, slotsUntil_of_children (isSlot_eq_false_of_tag? untagged) (tags c' untagged)]
      · rw [eq, List.flatMap_singleton]

end Passes

end PugComponents.Node

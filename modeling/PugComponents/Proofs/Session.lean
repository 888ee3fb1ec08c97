import PugComponents.Proofs.Definition.Detected
import PugComponents.Proofs.Expansion.Call
import PugComponents.Proofs.Value
import PugComponents.Session

/-! The passes of an expansion, one after the other. A template is expanded if all passes succeed, and a
well-formed template can fail only in the first two. The bodies that are registered for it are
well-formed. -/

namespace PugComponents

open Node

variable {analysis : Definition.Analysis} {config : Config} {page : Node}

def registered (analysis : Definition.Analysis) (config : Config) (page : Node) : Registry :=
  (Detection.ofTree config Registry.empty page analysis).registry

theorem announce_eq_ok (config : Config) (reg : Registry) :
    (Session.announce config reg).result = .ok () := by
  unfold Session.announce
  split <;> rfl

theorem expand_eq_ok_iff {tree : Node} :
    (expand config page analysis).result = .ok tree ↔
      ∃ reg, Detects analysis config page reg ∧ (Session.finish config reg page).result = .ok tree := by
  simp only [expand, Session.transform, Outcome.mapError_eq_ok, Run.result_bind_eq_ok,
    Run.result_pure, Except.ok.injEq]
  constructor
  · rintro ⟨_, detected, _, finished, -, -, rfl⟩
    exact ⟨_, detects_iff.1 ⟨detected, rfl⟩, finished⟩
  · rintro ⟨reg, detects, finished⟩
    obtain ⟨detected, rfl⟩ := detects_iff.2 detects
    exact ⟨(), detected, tree, finished, (), announce_eq_ok _ _, rfl⟩

theorem detects_of_expand {tree : Node} (h : (expand config page analysis).result = .ok tree) :
    Detects analysis config page (registered analysis config page) := by
  obtain ⟨reg, detects, -⟩ := expand_eq_ok_iff.1 h
  obtain ⟨-, rfl⟩ := detects_iff.2 detects
  exact detects

/-- The steps of a successful expansion. -/
structure Stages (analysis : Definition.Analysis) (config : Config) (page expanded kept tree : Node) :
    Prop where
  described : Registers page (registered analysis config page)
  expansion :
    ((Expansion.mk (registered analysis config page) config).tree [] page).result = .ok expanded
  removal : expanded.withoutDefinitions = .ok (some kept)
  flattening : flattenNode false kept = .ok tree

theorem expand_eq_ok {tree : Node} (h : (expand config page analysis).result = .ok tree) :
    ∃ expanded kept, Stages analysis config page expanded kept tree := by
  obtain ⟨reg, detects, finished⟩ := expand_eq_ok_iff.1 h
  obtain ⟨-, rfl⟩ := detects_iff.2 detects
  simp only [Session.finish, Run.result_bind_eq_ok, Run.result_lift] at finished
  obtain ⟨expanded, expansion, kept, removal, flattening⟩ := finished
  exact ⟨expanded, kept, detects.registers, expansion,
    withoutDefinitions_of_removeDefinitions removal, flattening⟩

theorem hasBodies_of_described (wf : page.isWellFormed = true)
    (described : Registers page (registered analysis config page)) :
    (Expansion.mk (registered analysis config page) config).HasBodies := by
  intro d hd
  obtain ⟨tag, htag, describes⟩ := exists_of_forall₂_right described hd
  exact describes.isWellFormed (isWellFormed_of_mem_walk wf (List.mem_of_mem_filter htag))

theorem call_settled (wf : page.isWellFormed = true)
    (described : Registers page (registered analysis config page)) :
    CallsReturn Settled ((Expansion.mk (registered analysis config page) config).call []) :=
  Expansion.expandCall_settled (hasBodies_of_described wf described) _ _

theorem settled_of_tree {expanded : Node} (isBlock : page.isBlock = true)
    (wf : page.isWellFormed = true) (described : Registers page (registered analysis config page))
    (run : ((Expansion.mk (registered analysis config page) config).tree [] page).result =
      .ok expanded) :
    expanded.isWellFormed = true ∧ expanded.CallFree ∧ expanded.bare = page.bare := by
  obtain ⟨wf', free⟩ := settled_of_expandNode (call_settled wf described) wf run
  refine ⟨wf', lacks_iff.2 ⟨?_, free⟩, (expandNode_eq_ok run).bare_eq⟩
  exact isCall_eq_false_of_tag? ((tag?_of_expandNode run).trans (tag?_of_isBlock isBlock))

theorem exists_cleanup {expanded : Node} (isBlock : expanded.isBlock = true)
    (wf : expanded.isWellFormed = true) :
    ∃ kept tree, expanded.removeDefinitions = .ok kept ∧ kept.flatten = .ok tree := by
  obtain ⟨o, removal⟩ := exists_withoutDefinitions wf
  have isKept : o.isSome = true := by
    rw [isSome_of_withoutDefinitions removal]
    simp [isDefinition, isTagNamed, tag?_of_isBlock isBlock]
  obtain ⟨kept, rfl⟩ := Option.isSome_iff_exists.1 isKept
  obtain ⟨tree, flattening⟩ := exists_flattenNode (isWellFormed_of_withoutDefinitions wf removal).1
  refine ⟨kept, tree, ?_, flattening⟩
  rw [removeDefinitions, removal]
  rfl

namespace Stages

variable {expanded kept tree : Node} (stages : Stages analysis config page expanded kept tree)
  (isBlock : page.isBlock = true) (wf : page.isWellFormed = true)
include stages isBlock wf

theorem expanded_settled :
    expanded.isWellFormed = true ∧ expanded.CallFree ∧ expanded.bare = page.bare :=
  settled_of_tree isBlock wf stages.described stages.expansion

theorem kept_settled :
    kept.isWellFormed = true ∧ kept.CallFree ∧ kept.Lacks isDefinition ∧ kept.bare = page.bare := by
  obtain ⟨wf', free, bare_eq⟩ := stages.expanded_settled isBlock wf
  obtain ⟨wf'', bare_eq'⟩ := isWellFormed_of_withoutDefinitions wf' stages.removal
  exact ⟨wf'', callFree_of_withoutDefinitions wf' stages.removal free,
    lacks_isDefinition_of_withoutDefinitions wf' stages.removal, bare_eq'.trans bare_eq⟩

/-- The finished tree is well-formed and has neither calls nor definitions. -/
theorem tree_settled :
    tree.isWellFormed = true ∧ tree.CallFree ∧ tree.Lacks isDefinition ∧ tree.isBlock = true := by
  obtain ⟨wf', free, undefined, bare_eq⟩ := stages.kept_settled isBlock wf
  have keptBlock : kept.isBlock = true := by rw [← isBlock_bare, bare_eq, isBlock_bare, isBlock]
  have notResolved : kept.isResolved = false := by
    cases kept with
    | inclusion => cases keptBlock
    | extension => cases keptBlock
    | _ => rfl
  obtain ⟨wf'', bare_eq'⟩ := isWellFormed_of_flattenNode wf' stages.flattening
  refine ⟨wf'', ?_, ?_, ?_⟩
  · exact lacks_of_flattenNode (fun _ _ => isCall_eq_of_tag?_eq) wf' stages.flattening free
  · exact lacks_of_flattenNode (fun _ _ => isDefinition_eq_of_tag?_eq) wf' stages.flattening undefined
  · rw [← isBlock_bare, bare_eq' notResolved, isBlock_bare, keptBlock]

end Stages

theorem expand_eq_error {e : Failure} (isBlock : page.isBlock = true) (wf : page.isWellFormed = true)
    (h : (expand config page analysis).result = .error e) :
    ∃ e', Session.reportDepth config page e' = e ∧
      ((Detection.ofTree config Registry.empty page analysis).outcome.result = .error e' ∨
        Registers page (registered analysis config page) ∧
        ((Expansion.mk (registered analysis config page) config).tree [] page).result = .error e') := by
  simp only [expand, Session.transform, Outcome.mapError_eq_error] at h
  obtain ⟨e', h, rfl⟩ := h
  refine ⟨e', rfl, ?_⟩
  rcases Run.result_bind_eq_error.1 h with h | ⟨_, detected, h⟩
  · exact .inl h
  have described := (detects_iff.1 ⟨detected, rfl⟩).registers
  refine .inr ⟨described, ?_⟩
  rcases Run.result_bind_eq_error.1 h with h | ⟨tree, -, h⟩
  · rcases Run.result_bind_eq_error.1 h with h | ⟨expanded, run, h⟩
    · exact h
    · obtain ⟨wf', -, bare_eq⟩ := settled_of_tree isBlock wf described run
      have isBlock' : expanded.isBlock = true := by rw [← isBlock_bare, bare_eq, isBlock_bare, isBlock]
      obtain ⟨kept, tree, removal, flattening⟩ := exists_cleanup isBlock' wf'
      simp [Run.result_bind_eq_error, removal, flattening] at h
  · simp [Run.result_bind_eq_error, announce_eq_ok] at h

end PugComponents

import PugComponents.Proofs.Cleanup.Order
import PugComponents.Proofs.Tree.Thinned

/-! The order of the two passes does not matter. Each of them rebuilds a node around what it makes of the
children, so that both together rebuild it around what both make of a child; and in a block a node gives
way to the same nodes, whichever pass comes first. A node of which the file is resolved is not rebuilt:
it gives way to the tree of the file, and the other pass reaches the same tree through the node. -/

namespace PugComponents.Node

open Outcome

def kept? (n : Node) : Option Node := n.withoutDefinitions.toOption.join

def flat? (n : Node) : Option Node := (flattenNode false n).toOption

variable {n : Node}

theorem kept?_eq_some_iff {k : Node} : n.kept? = some k ↔ withoutDefinitions n = .ok (some k) := by
  rw [kept?, Option.join_eq_some_iff, toOption_eq_some_iff]

theorem flat?_eq_some_iff {f : Node} : n.flat? = some f ↔ flattenNode false n = .ok f :=
  toOption_eq_some_iff

theorem remainder_of_kept? {k : Node} (kept : n.kept? = some k) : remainder n = some [k] := by
  rw [remainder, kept?_eq_some_iff.1 kept]
  rfl

theorem remainder_of_isDefinition (isDefinition : n.isDefinition = true) : remainder n = some [] := by
  rw [remainder, withoutDefinitions_of_isDefinition isDefinition]
  rfl

theorem exists_child_of_isResolved (isResolved : n.isResolved = true) :
    n.isBlock = false ∧ n.tag? = none ∧ ∃ ast, n.children = [ast] := by
  cases n with
  | inclusion pos file block =>
    obtain ⟨ast, found⟩ := Option.isSome_iff_exists.1 isResolved
    exact ⟨rfl, rfl, ast, by simp [children, found]⟩
  | extension pos file =>
    obtain ⟨ast, found⟩ := Option.isSome_iff_exists.1 isResolved
    exact ⟨rfl, rfl, ast, by simp [children, found]⟩
  | _ => cases isResolved

section Well

variable (wf : n.isWellFormed = true)
include wf

theorem exists_kept (notDefinition : n.isDefinition = false) : ∃ k, n.kept? = some k := by
  obtain ⟨o, run⟩ := exists_withoutDefinitions wf
  have found := isSome_of_withoutDefinitions run
  rw [notDefinition] at found
  obtain ⟨k, rfl⟩ := Option.isSome_iff_exists.1 found
  exact ⟨k, kept?_eq_some_iff.2 run⟩

theorem exists_flat : ∃ f, n.flat? = some f := by
  obtain ⟨f, run⟩ := exists_flattenNode wf
  exact ⟨f, flat?_eq_some_iff.2 run⟩

theorem kept?_eq_rebuild (notDefinition : n.isDefinition = false) :
    n.kept? = rebuild kept? remainder n := by
  obtain ⟨k, kept⟩ := exists_kept wf notDefinition
  rw [kept]
  refine (rebuild_of_rebuilt (withoutDefinitions_eq_ok wf (kept?_eq_some_iff.1 kept)) ?_ ?_).symm
  · intro c part remaining
    cases remaining with
    | dropped isDefinition => exact remainder_of_isDefinition isDefinition
    | kept _ run => exact remainder_of_kept? (kept?_eq_some_iff.2 run)
  · exact fun c c' => kept?_eq_some_iff.2

theorem flat?_eq_rebuild (notResolved : n.isResolved = false) : n.flat? = rebuild flat? flattening n := by
  obtain ⟨f, flat⟩ := exists_flat wf
  rw [flat]
  rcases flattenNode_eq_ok wf (flat?_eq_some_iff.1 flat) with ⟨ast, isResolved, -⟩ | ⟨-, built⟩
  · rw [notResolved] at isResolved
    cases isResolved
  · refine (rebuild_of_rebuilt built ?_ fun c c' => flat?_eq_some_iff.2).symm
    rintro c part ⟨c', run, rfl⟩
    rw [flattening, run]
    rfl

theorem flat?_of_isResolved (isResolved : n.isResolved = true) {ast : Node}
    (child : n.children = [ast]) : n.flat? = ast.flat? := by
  obtain ⟨f, flat⟩ := exists_flat wf
  rw [flat]
  rcases flattenNode_eq_ok wf (flat?_eq_some_iff.1 flat) with ⟨ast', -, child', run⟩ | ⟨notResolved, -⟩
  · obtain rfl : ast = ast' := by simpa [child] using child'
    exact (flat?_eq_some_iff.2 run).symm
  · rw [isResolved] at notResolved
    cases notResolved

theorem isDefinition_of_flat? {f : Node} (flat : n.flat? = some f) : f.isDefinition = n.isDefinition := by
  have run := flat?_eq_some_iff.1 flat
  rcases flattenNode_eq_ok wf run with ⟨ast, isResolved, child, below⟩ | ⟨-, built⟩
  · obtain ⟨notBlock, untagged, -⟩ := exists_child_of_isResolved isResolved
    have hc : ast ∈ n.children := by simp [child]
    have kind := isBlock_or_isConditional wf notBlock hc
    have unresolved : ast.isResolved = false := by
      cases ast with
      | inclusion | extension => simp [isBlock, isConditional] at kind
      | _ => rfl
    have sameKind := (isWellFormed_of_flattenNode (isWellFormed_of_mem_children wf hc) below).2 unresolved
    refine isDefinition_eq_of_tag?_eq ((tag?_eq_of_bare_eq sameKind).trans ?_)
    rw [untagged, tag?_of_mem_children wf notBlock hc]
  · exact isDefinition_eq_of_tag?_eq built.tag?_eq

theorem gather_remainder_spliced (notDefinition : n.isDefinition = false) :
    gather remainder n.spliced = n.kept?.map spliced := by
  rcases spliced_cases n with ⟨plain, eq⟩ | ⟨notPlain, eq⟩
  · cases n with
    | seq pos head nodes =>
      cases head with
      | plain =>
        rw [kept?_eq_rebuild wf notDefinition, rebuild, Option.map_map]
        exact Option.map_id'.symm
      | named => cases plain
    | _ => cases plain
  · obtain ⟨k, kept⟩ := exists_kept wf notDefinition
    have sameKind := (isWellFormed_of_withoutDefinitions wf (kept?_eq_some_iff.1 kept)).2
    have single : k.spliced = [k] := by
      rcases spliced_cases k with ⟨plain, -⟩ | ⟨-, eq⟩
      · rw [isPlainBlock_eq_of_bare_eq sameKind, notPlain] at plain
        cases plain
      · exact eq
    rw [eq, gather_singleton, remainder_of_kept? kept, kept, Option.map_some, single]

theorem remainder_flattening
    (single : n.isDefinition = false → n.kept?.bind flat? = n.flat?.bind kept?) :
    (remainder n).bind (gather flattening) = (flattening n).bind (gather remainder) := by
  obtain ⟨f, flat⟩ := exists_flat wf
  have sameKind := isDefinition_of_flat? wf flat
  have wf' := (isWellFormed_of_flattenNode wf (flat?_eq_some_iff.1 flat)).1
  have flattens : flattening n = some f.spliced := congrArg (Option.map spliced) flat
  rw [flattens, Option.bind_some]
  cases isDefinition : n.isDefinition with
  | true =>
    have alone : f.spliced = [f] := by
      obtain ⟨pos, element, block, rfl, -⟩ := exists_tag_of_isTagNamed (sameKind.trans isDefinition)
      rfl
    rw [remainder_of_isDefinition isDefinition, alone, gather_singleton,
      remainder_of_isDefinition (sameKind.trans isDefinition)]
    rfl
  | false =>
    obtain ⟨k, kept⟩ := exists_kept wf isDefinition
    have both := single isDefinition
    rw [kept, flat, Option.bind_some, Option.bind_some] at both
    rw [gather_remainder_spliced wf' (sameKind.trans isDefinition), ← both, remainder_of_kept? kept,
      Option.bind_some, gather_singleton]
    rfl

theorem exists_child_of_kept? {k ast : Node} (kept : n.kept? = some k) (notBlock : n.isBlock = false)
    (child : n.children = [ast]) : ∃ ast', k.children = [ast'] ∧ ast.kept? = some ast' := by
  obtain ⟨parts, related, eq⟩ := (withoutDefinitions_eq_ok wf (kept?_eq_some_iff.1 kept)).children_eq
  rw [child, List.forall₂_cons_left_iff] at related
  obtain ⟨part, others, piece, rest, rfl⟩ := related
  obtain rfl := List.forall₂_nil_left_iff.1 rest
  cases piece with
  | listed isBlock =>
    rw [notBlock] at isBlock
    cases isBlock
  | @single ast' _ run => exact ⟨ast', by simpa using eq, kept?_eq_some_iff.2 run⟩

theorem kept?_bind_flat? (notDefinition : n.isDefinition = false) (notResolved : n.isResolved = false) :
    n.kept?.bind flat? =
      rebuild (fun c => c.kept?.bind flat?) (fun c => (remainder c).bind (gather flattening)) n := by
  obtain ⟨k, kept⟩ := exists_kept wf notDefinition
  have run := kept?_eq_some_iff.1 kept
  have unresolved := (isResolved_eq_of_rebuilt (withoutDefinitions_eq_ok wf run)).trans notResolved
  rw [← rebuild_rebuild, ← kept?_eq_rebuild wf notDefinition, kept, Option.bind_some, Option.bind_some]
  exact flat?_eq_rebuild (isWellFormed_of_withoutDefinitions wf run).1 unresolved

theorem flat?_bind_kept? (notDefinition : n.isDefinition = false) (notResolved : n.isResolved = false) :
    n.flat?.bind kept? =
      rebuild (fun c => c.flat?.bind kept?) (fun c => (flattening c).bind (gather remainder)) n := by
  obtain ⟨f, flat⟩ := exists_flat wf
  have wfFlat := (isWellFormed_of_flattenNode wf (flat?_eq_some_iff.1 flat)).1
  rw [← rebuild_rebuild, ← flat?_eq_rebuild wf notResolved, flat, Option.bind_some, Option.bind_some]
  exact kept?_eq_rebuild wfFlat ((isDefinition_of_flat? wf flat).trans notDefinition)

/-- Where the file is resolved, both passes come to its tree, which one of them reaches through the node. -/
theorem kept?_flat?_of_isResolved (notDefinition : n.isDefinition = false)
    (isResolved : n.isResolved = true) {ast : Node} (child : n.children = [ast])
    (below : ast.kept?.bind flat? = ast.flat?.bind kept?) : n.kept?.bind flat? = n.flat?.bind kept? := by
  obtain ⟨k, kept⟩ := exists_kept wf notDefinition
  have run := kept?_eq_some_iff.1 kept
  have keptResolved := (isResolved_eq_of_rebuilt (withoutDefinitions_eq_ok wf run)).trans isResolved
  obtain ⟨ast', child', keptBelow⟩ :=
    exists_child_of_kept? wf kept (exists_child_of_isResolved isResolved).1 child
  rw [kept, Option.bind_some, flat?_of_isResolved wf isResolved child, ← below, keptBelow,
    Option.bind_some]
  exact flat?_of_isResolved (isWellFormed_of_withoutDefinitions wf run).1 keptResolved child'

end Well

theorem kept?_flat? (wf : n.isWellFormed = true) (notDefinition : n.isDefinition = false) :
    n.kept?.bind flat? = n.flat?.bind kept? := by
  induction n using childInduction with
  | step n ih =>
    have below : ∀ c ∈ n.children, c.isWellFormed = true := fun c => isWellFormed_of_mem_children wf
    -- Outside of blocks there are no definitions, so that both passes come to every child.
    have single : n.isBlock = false → ∀ c ∈ n.children, c.kept?.bind flat? = c.flat?.bind kept? :=
      fun notBlock c hc =>
        ih c hc (below c hc) (isDefinition_eq_false_of_tag? (tag?_of_mem_children wf notBlock hc))
    cases isResolved : n.isResolved with
    | true =>
      obtain ⟨notBlock, -, ast, child⟩ := exists_child_of_isResolved isResolved
      exact kept?_flat?_of_isResolved wf notDefinition isResolved child
        (single notBlock ast (by simp [child]))
    | false =>
      rw [kept?_bind_flat? wf notDefinition isResolved, flat?_bind_kept? wf notDefinition isResolved]
      exact rebuild_congr (fun _ c hc => remainder_flattening (below c hc) (ih c hc (below c hc))) single

theorem removeDefinitions_of_kept? {k : Node} (kept : n.kept? = some k) : n.removeDefinitions = .ok k := by
  rw [removeDefinitions, kept?_eq_some_iff.1 kept]
  rfl

/-- What the two passes make of a block. Flattening keeps every node but the wrappers, in order, and leaves
no wrapper that can go; the removal of definitions keeps every node outside of definitions. A pass that is
run again changes nothing, and it does not matter which pass comes first. -/
theorem commutation_of_isBlock {root : Node} (wf : root.isWellFormed = true)
    (isBlock : root.isBlock = true) :
    ∃ flat kept both, root.flatten = .ok flat ∧ root.removeDefinitions = .ok kept ∧
      flat.heads = root.heads ∧ flat.Lacks isResolved ∧ flat.Lacks isNested ∧
      kept.heads = root.headsOutside ∧
      kept.flatten = .ok both ∧ flat.removeDefinitions = .ok both ∧
      flat.flatten = .ok flat ∧ kept.removeDefinitions = .ok kept := by
  have notDefinition := isDefinition_eq_false_of_tag? (tag?_of_isBlock isBlock)
  obtain ⟨kept, keeps⟩ := exists_kept wf notDefinition
  obtain ⟨flat, flattens⟩ := exists_flat wf
  have removal := kept?_eq_some_iff.1 keeps
  have run := flat?_eq_some_iff.1 flattens
  have wfKept := (isWellFormed_of_withoutDefinitions wf removal).1
  have wfFlat := (isWellFormed_of_flattenNode wf run).1
  obtain ⟨both, flattensKept⟩ := exists_flat wfKept
  have commute := kept?_flat? wf notDefinition
  rw [keeps, flattens, Option.bind_some, Option.bind_some, flattensKept] at commute
  have unresolved := lacks_isResolved_of_flattenNode wf run
  have unnested := lacks_isNested_of_flattenNode wf run
  refine ⟨flat, kept, both, run, removeDefinitions_of_kept? keeps, heads_of_flattenNode wf run, unresolved,
    unnested, heads_of_withoutDefinitions wf removal, flat?_eq_some_iff.1 flattensKept,
    removeDefinitions_of_kept? commute.symm, flatten_eq_self wfFlat unresolved unnested, ?_⟩
  exact removeDefinitions_eq_self wfKept (lacks_isDefinition_of_withoutDefinitions wf removal)

def includedPart (nodes : List Node) : Node :=
  .inclusion {} (some (.fileReference {} (.str "part.pug") .null (some (block {} nodes)))) none

def tagAround (name : String) (nodes : List Node) : Node :=
  .owner {} (.tag { label := .str name }) (some (block {} nodes))

/-- Files in files, in a definition and in a loop, one of them with a definition, and a block in a
block. -/
def partsPage : Node :=
  block {} [tagAround "component" [includedPart [tagAround "p" []]],
    includedPart [tagAround "component" [], block {} [tagAround "div" []],
      includedPart [tagAround "ul" [includedPart [tagAround "li" []]]]],
    .fork {} (.each (.str "rows") (.str "row") .null)
      (some (block {} [includedPart [tagAround "em" []], tagAround "component" []])) none]

theorem commutation_partsPage : ∃ flat kept, partsPage.flatten = .ok flat ∧
    partsPage.removeDefinitions = .ok kept ∧ flat.heads = partsPage.heads ∧
    partsPage.heads.length = 9 ∧ flat.Lacks isResolved ∧ kept.heads = partsPage.headsOutside ∧
    partsPage.headsOutside.length = 5 ∧ flat.removeDefinitions = kept.flatten := by
  have wf : partsPage.isWellFormed = true := by decide +kernel
  obtain ⟨flat, kept, both, flattens, removal, same, unresolved, -, outside, keptFlat, flatKept, -, -⟩ :=
    commutation_of_isBlock wf rfl
  exact ⟨flat, kept, flattens, removal, same, by decide +kernel, unresolved, outside, by decide +kernel,
    flatKept.trans keptFlat.symm⟩

end PugComponents.Node

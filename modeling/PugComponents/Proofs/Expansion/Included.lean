import PugComponents.Proofs.Cleanup.Order
import PugComponents.Proofs.Definition.Hoisted
import PugComponents.Proofs.Expansion.Idempotence

/-! What is nested under a reference to a file. A reference that is not resolved stays as it is, with its
nested block. Where the file is resolved, its tree takes the place of the reference, and nothing looks
at the nested block: the result is the same whatever the block holds. All other nodes are kept. -/

namespace PugComponents

open Node Outcome

namespace Node

def isInclusion : Node → Bool
  | .inclusion .. => true
  | _ => false

def nested? : Node → Option Node
  | .inclusion _ _ block => block
  | _ => none

def withNested (block : Option Node) : Node → Node
  | .inclusion pos file _ => .inclusion pos file block
  | n => n

namespace Frame

def plugAll (frames : List Frame) (n : Node) : Node := frames.foldr plug n

end Frame

theorem exists_plug_of_mem_children {n c : Node} (hc : c ∈ n.children) : ∃ f : Frame, f.plug c = n := by
  have ofFile : ∀ file : Option Node, c ∈ (ast? file).toList →
      ∃ pos path fullPath, file = some (.fileReference pos path fullPath (some c)) := by
    intro file hc
    unfold ast? at hc
    split at hc
    · rw [Option.mem_toList] at hc
      exact ⟨_, _, _, by rw [Option.mem_def.1 hc]⟩
    · simp at hc
  cases n with
  | leaf | rawInclusion | fileReference => simp [children] at hc
  | seq pos head nodes =>
    obtain ⟨before, after, rfl⟩ := List.append_of_mem (show c ∈ nodes from hc)
    exact ⟨.seq pos head before after, rfl⟩
  | owner pos head block =>
    obtain rfl := Option.mem_toList.1 hc
    exact ⟨.owner pos head, rfl⟩
  | fork pos head main alternate =>
    simp only [children, List.mem_append, Option.mem_toList] at hc
    rcases hc with rfl | rfl
    · exact ⟨.firstBranch pos head alternate, rfl⟩
    · exact ⟨.secondBranch pos head main, rfl⟩
  | inclusion pos file block =>
    obtain ⟨filePos, path, fullPath, rfl⟩ := ofFile file hc
    exact ⟨.inclusion pos filePos path fullPath block, rfl⟩
  | extension pos file =>
    obtain ⟨filePos, path, fullPath, rfl⟩ := ofFile file hc
    exact ⟨.extension pos filePos path fullPath, rfl⟩

section Flattening

variable {n n' : Node}

theorem flattenAll_congr (same : flattenNode false n' = flattenNode false n) (before after : List Node) :
    flattenAll (before ++ n' :: after) = flattenAll (before ++ n :: after) := by
  induction before with
  | nil => simp only [List.nil_append, flattenAll, same]
  | cons m before ih => simp only [List.cons_append, flattenAll, ih]

theorem flattenNode_plug
    (same : ∀ standsForFile, flattenNode standsForFile n' = flattenNode standsForFile n)
    (f : Frame) (standsForFile : Bool) :
    flattenNode standsForFile (f.plug n') = flattenNode standsForFile (f.plug n) := by
  cases f with
  | seq pos head before after => simp only [Frame.plug, flattenNode, flattenAll_congr (same false)]
  | owner | firstBranch | secondBranch => simp only [Frame.plug, flattenNode, flattenOption, same]
  | inclusion | extension =>
    simp only [Frame.plug, flattenNode, flattenFile, fileTree, flattenOption, same]
    cases standsForFile <;> cases flattenNode true n <;> rfl

theorem flattenNode_withNested (isResolved : n.isResolved = true) (block : Option Node) :
    flattenNode false (n.withNested block) = flattenNode false n := by
  cases n with
  | inclusion pos file block' =>
    obtain ⟨ast, found⟩ := Option.isSome_iff_exists.1 isResolved
    unfold ast? at found
    split at found
    · subst found
      simp only [withNested, flattenNode, fileTree, Bool.false_eq_true, if_false]
      cases flattenNode true ast <;> rfl
    · cases found
  | _ => rfl

/-- Wherever a resolved reference stands, another block may be nested under it. -/
theorem exists_frames_of_isResolved {page : Node} (wf : page.isWellFormed = true) (hn : n ∈ page.walk)
    (inner : n ≠ page) (isResolved : n.isResolved = true) :
    ∃ frames, Frame.plugAll frames n = page ∧ ∀ block standsForFile,
      flattenNode standsForFile (Frame.plugAll frames (n.withNested block)) =
        flattenNode standsForFile page := by
  induction page using childInduction with
  | step page ih =>
    obtain ⟨c, hc, hn⟩ := (mem_walk_iff.1 hn).resolve_left inner
    by_cases here : n = c
    · subst here
      -- Only in a block can a reference to a file stand.
      have isBlock : page.isBlock = true := by
        by_contra notBlock
        have kind := isBlock_or_isConditional wf (by simpa using notBlock) hc
        cases n with
        | inclusion | extension => simp [Node.isBlock, isConditional] at kind
        | _ => cases isResolved
      obtain ⟨pos, head, nodes, rfl⟩ := exists_seq_of_isBlock isBlock
      obtain ⟨before, after, rfl⟩ := List.append_of_mem (show n ∈ nodes from hc)
      refine ⟨[.seq pos head before after], rfl, fun block standsForFile => ?_⟩
      simp only [Frame.plugAll, List.foldr_cons, List.foldr_nil, Frame.plug, flattenNode,
        flattenAll_congr (flattenNode_withNested isResolved block)]
    · obtain ⟨frames, rfl, same⟩ := ih c hc (isWellFormed_of_mem_children wf hc) hn here
      obtain ⟨f, rfl⟩ := exists_plug_of_mem_children hc
      exact ⟨f :: frames, rfl, fun block => flattenNode_plug (same block) f⟩

theorem bare_of_notResolved (wf : n.isWellFormed = true) (isInclusion : n.isInclusion = true)
    (notResolved : n.isResolved = false) : n.bare = n := by
  cases n with
  | inclusion pos file block =>
    obtain ⟨reference, rfl, isFile, -⟩ := (isWellFormed_inclusion.1 wf).2.1
    cases reference with
    | fileReference filePos path fullPath ast =>
      cases ast with
      | none => rfl
      | some ast => cases notResolved
    | _ => cases isFile
  | _ => cases isInclusion

theorem isInclusion_eq_of_bare_eq (h : n'.bare = n.bare) : n'.isInclusion = n.isInclusion := by
  have ofBare : ∀ m : Node, m.bare.isInclusion = m.isInclusion := fun m => by cases m <;> rfl
  rw [← ofBare, h, ofBare]

theorem mem_walk_of_notResolved {page flat : Node} (wf : page.isWellFormed = true)
    (run : flattenNode false page = .ok flat) (hn : n ∈ page.walk) (isInclusion : n.isInclusion = true)
    (notResolved : n.isResolved = false) : n ∈ flat.walk := by
  have wrapper : n.isWrapper = false := by
    cases n with
    | inclusion => simp [isWrapper, isPlainBlock, notResolved]
    | _ => cases isInclusion
  have listed : n.bare ∈ page.heads :=
    List.mem_map_of_mem (List.mem_filter.2 ⟨hn, by simp [wrapper]⟩)
  rw [← heads_of_flattenNode wf run, heads, List.mem_map] at listed
  obtain ⟨m, hm, same⟩ := listed
  have hm := List.mem_of_mem_filter hm
  have wfFlat := (isWellFormed_of_flattenNode wf run).1
  have unresolved : m.isResolved = false := lacks_isResolved_of_flattenNode wf run m hm
  have sameKind := (isInclusion_eq_of_bare_eq same).trans isInclusion
  rw [bare_of_notResolved (isWellFormed_of_mem_walk wf hn) isInclusion notResolved,
    bare_of_notResolved (isWellFormed_of_mem_walk wfFlat hm) sameKind unresolved] at same
  exact same ▸ hm

end Flattening

end Node

/-- What becomes of the references to files on a page without component vocabulary. All nodes that a walk
comes to are kept, but for the wrappers. A reference that is not resolved stands in the result with its
nested block; and the result does not depend on what is nested under a resolved one. -/
theorem included_of_expand {page : Node} (wf : page.isWellFormed = true) (isBlock : page.isBlock = true)
    (plain : ∀ n ∈ page.walk, n.isDefinition = false ∧ n.isCall = false) :
    ∃ flat, page.flatten = .ok flat ∧
      (∀ analysis config, (expand config page analysis).result = .ok flat) ∧
      flat.heads = page.heads ∧ ∀ n ∈ page.walk, n.isInclusion = true →
        (n.isResolved = false → n ∈ flat.walk) ∧
        (n.isResolved = true → ∃ frames, Frame.plugAll frames n = page ∧
          ∀ block, (Frame.plugAll frames (n.withNested block)).flatten = .ok flat) := by
  have free : page.CallFree := fun n hn => (plain n hn).2
  obtain ⟨flat, run⟩ := exists_flattenNode wf
  refine ⟨flat, run, fun analysis config => ?_, heads_of_flattenNode wf run,
    fun n hn isInclusion => ⟨?_, ?_⟩⟩
  · exact expand_eq_flatten wf (fun n hn => (plain n hn).1) (fun c hc => free.of_mem_children hc) run
  · exact mem_walk_of_notResolved wf run hn isInclusion
  · intro isResolved
    have inner : n ≠ page := by
      rintro rfl
      cases n with
      | inclusion => cases isBlock
      | _ => cases isInclusion
    obtain ⟨frames, eq, same⟩ := exists_frames_of_isResolved wf hn inner isResolved
    exact ⟨frames, eq, fun block => (same block false).trans run⟩

def nestingPart (tree : Option Node) : Node :=
  .inclusion {} (some (.fileReference {} (.str "part.pug") .null tree)) (some (block {} [plainTag "p" []]))

def linkedPart : Node := nestingPart (some (block {} [plainTag "em" []]))

def nestedPage : Node := block {} [nestingPart none, plainTag "div" [linkedPart]]

theorem included_nestedPage : ∃ flat, (expand {} nestedPage).result = .ok flat ∧
    flat.heads = nestedPage.heads ∧ nestingPart none ∈ flat.walk ∧
    ∃ frames, Frame.plugAll frames linkedPart = nestedPage ∧
      ∀ block, (Frame.plugAll frames (linkedPart.withNested block)).flatten = .ok flat := by
  have walk : nestedPage.walk = [nestedPage, nestingPart none, plainTag "div" [linkedPart],
      block {} [linkedPart], linkedPart, block {} [plainTag "em" []], plainTag "em" [], block {} []] := rfl
  have plain : ∀ n ∈ nestedPage.walk, n.isDefinition = false ∧ n.isCall = false := by decide +kernel
  have wf : nestedPage.isWellFormed = true := by decide +kernel
  obtain ⟨flat, -, expands, same, each⟩ := included_of_expand wf rfl plain
  have first := each (nestingPart none) (by simp [walk]) rfl
  have second := each linkedPart (by simp [walk]) rfl
  exact ⟨flat, expands {} {}, same, first.1 rfl, second.2 rfl⟩

def emptyPart : Node := nestingPart (some (block {} []))

/-- The paragraph is lost, although it is nested under a reference on the page. -/
theorem lost_nestedPart : (block {} [emptyPart]).isWellFormed = true ∧
    (∀ n ∈ (block {} [emptyPart]).walk,
      n.isDefinition = false ∧ n.isSlot = false ∧ n.isCall = false) ∧
    emptyPart ∈ (block {} [emptyPart]).walk ∧ emptyPart.isResolved = true ∧
    (∃ b, emptyPart.nested? = some b ∧ plainTag "p" [] ∈ b.walk) ∧
    ∃ flat, (block {} [emptyPart]).flatten = .ok flat ∧
      (expand {} (block {} [emptyPart])).result = .ok flat ∧
      ∀ n ∈ flat.walk, n.bare ≠ (plainTag "p" []).bare := by
  refine ⟨by decide +kernel, by decide +kernel, ?_, rfl, ⟨_, rfl, ?_⟩, block {} [], rfl, rfl, ?_⟩
  · exact mem_walk_of_mem_children (List.mem_singleton_self _) (self_mem_walk _)
  · exact mem_walk_of_mem_children (List.mem_singleton_self _) (self_mem_walk _)
  · have walk : (block {} []).walk = [block {} []] := rfl
    rw [walk]
    simp [bare, block, plainTag]

end PugComponents

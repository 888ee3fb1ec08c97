import PugComponents.Proofs.Traversal.Order
import PugComponents.Proofs.Traversal.Watched
import PugComponents.Proofs.Tree.WellFormed

/-! Traversals with hooks that replace and drop nodes. Whatever they drop, wherever it stands, and whatever
they put in the place of a node of its kind, the tree stays well-formed: a part that cannot be missing
gives way to an empty block. Only a root that is dropped leaves nothing to return. -/

namespace PugComponents

namespace Node

/-- A node that can stand wherever another one stands: a block for a block, a test or a block for a test,
and anything well-formed for anything else. -/
structure StandsFor (n' n : Node) : Prop where
  wellFormed : n'.isWellFormed = true
  block : n.isBlock = true → n'.isBlock = true
  conditional : n.isConditional = true → n'.isConditional = true ∨ n'.isBlock = true

namespace StandsFor

variable {n n' k : Node}

theorem refl (wf : n.isWellFormed = true) : n.StandsFor n := ⟨wf, id, .inl⟩

theorem trans (h : k.StandsFor n') (h' : n'.StandsFor n) : k.StandsFor n where
  wellFormed := h.wellFormed
  block isBlock := h.block (h'.block isBlock)
  conditional isConditional := by
    rcases h'.conditional isConditional with isConditional | isBlock
    · exact h.conditional isConditional
    · exact .inr (h.block isBlock)

theorem of_bare_eq (wf : n'.isWellFormed = true) (same : n'.bare = n.bare) : n'.StandsFor n where
  wellFormed := wf
  block isBlock := by rwa [← isBlock_bare, same, isBlock_bare]
  conditional isConditional := .inl (by rwa [← isConditional_bare, same, isConditional_bare])

theorem isAlternativeOf {head : Fork} (h : n'.StandsFor n) (admitted : n.isAlternativeOf head = true) :
    n'.isAlternativeOf head = true := by
  cases head with
  | conditional test =>
    simp only [Node.isAlternativeOf, Bool.or_eq_true] at admitted ⊢
    rcases admitted with isBlock | isConditional
    · exact .inl (h.block isBlock)
    · exact (h.conditional isConditional).symm
  | each obj val key => exact h.block admitted

end StandsFor

end Node

namespace Visitor

open Node

variable {σ : Type}

/-- Every hook, called for a well-formed node of its kind, decides to keep it, to drop it, or to put
something in its place that can stand there. -/
def Repairable (v : Visitor (Remembering σ)) : Prop :=
  ∀ n hook, (v n.kind).enter = some hook ∨ (v n.kind).leave = some hook → n.isWellFormed = true →
    ∀ parent s, ∃ verdict s', hook n parent s = .ok verdict s' ∧
      ∀ n', verdict = .replace n' → n'.StandsFor n

variable {v : Visitor (Remembering σ)} {n : Node} {parent : Option Node}

/-- What a hook decides for a node: the root is dropped if it is the root and the hook says so. -/
def Decides (parent : Option Node) (n : Node) (verdict : Verdict) (made : List Judgement) : Prop :=
  (∀ n', verdict = .replace n' → n'.StandsFor n) ∧
    (RootDropped made ↔ parent = none ∧ verdict = .remove)

/-- What becomes of a node: nothing, or something that can stand in its place. The root is dropped if it
is the root and nothing is left. -/
def Becomes (parent : Option Node) (n : Node) (left : Option Node) (made : List Judgement) : Prop :=
  (∀ n' ∈ left, n'.StandsFor n) ∧ (RootDropped made ↔ parent = none ∧ left = none)

theorem course_hook {hook : Hook (Remembering σ)} (phase : Phase)
    (decides : ∀ s, ∃ verdict s', hook n parent s = .ok verdict s' ∧
      ∀ n', verdict = .replace n' → n'.StandsFor n) :
    Course (Decides parent n) (hook n parent) (hook.watched phase n parent) := by
  intro s made
  obtain ⟨verdict, s', run, fits⟩ := decides s
  exact .inl ⟨verdict, s', [⟨phase, n, parent, verdict⟩], run, by simp [Hook.watched, run], fits, by simp⟩

theorem course_keep : Course (Decides parent n) (pure .keep : Remembering σ Verdict) (pure .keep) :=
  .pure ⟨by simp, by simp⟩

theorem Repairable.course_onEnter (repairable : v.Repairable) (wf : n.isWellFormed = true) :
    Course (Decides parent n) (v.onEnter parent n) (v.watched.onEnter parent n) := by
  unfold onEnter watched
  cases found : (v n.kind).enter with
  | none => exact course_keep
  | some hook =>
    exact course_hook .enter (repairable n hook (.inl found) wf parent)

theorem Repairable.course_onLeave (repairable : v.Repairable) (wf : n.isWellFormed = true) :
    Course (Decides parent n) (v.onLeave parent n) (v.watched.onLeave parent n) := by
  unfold onLeave watched
  cases found : (v n.kind).leave with
  | none => exact course_keep
  | some hook =>
    exact course_hook .leave (repairable n hook (.inr found) wf parent)

theorem Repairable.course_left (repairable : v.Repairable) {n' : Node} (stands : n'.StandsFor n) :
    Course (Becomes parent n) (v.left parent n') (v.watched.left parent n') := by
  refine (repairable.course_onLeave stands.wellFormed).bind fun verdict made decides => ?_
  obtain ⟨fits, dropped⟩ := decides
  cases verdict with
  | keep => exact .pure ⟨fun k hk => Option.some.inj hk ▸ stands, by simpa using dropped⟩
  | replace k =>
    exact .pure ⟨fun l hl => Option.some.inj hl ▸ (fits k rfl).trans stands, by simpa using dropped⟩
  | remove => exact .pure ⟨by simp, by simpa using dropped⟩

def Handles (again : Option Node → Node → Remembering σ (Option Node))
    (watched : Option Node → Node → Remembering (σ × List Judgement) (Option Node)) : Prop :=
  ∀ parent n, n.isWellFormed = true → Course (Becomes parent n) (again parent n) (watched parent n)

variable {again : Option Node → Node → Remembering σ (Option Node)}
  {watched : Option Node → Node → Remembering (σ × List Judgement) (Option Node)}

theorem Repairable.course_entered (repairable : v.Repairable) (handles : Handles again watched)
    (wf : n.isWellFormed = true) (skip : Bool) {onward : Remembering σ (Option Node)}
    {onward' : Remembering (σ × List Judgement) (Option Node)}
    (further : Course (Becomes parent n) onward onward') :
    Course (Becomes parent n) (v.entered again skip parent n onward)
      (v.watched.entered watched skip parent n onward') := by
  unfold entered
  cases skip with
  | true => exact further
  | false =>
    refine (repairable.course_onEnter wf).bind fun verdict made decides => ?_
    obtain ⟨fits, dropped⟩ := decides
    cases verdict with
    | keep =>
      refine further.imp fun left more becomes => ⟨becomes.1, ?_⟩
      rw [rootDropped_append, becomes.2, dropped]
      simp
    | replace k =>
      refine (handles parent k (fits k rfl).wellFormed).imp fun left more becomes =>
        ⟨fun l hl => (becomes.1 l hl).trans (fits k rfl), ?_⟩
      rw [rootDropped_append, becomes.2, dropped]
      simp
    | remove => exact .pure ⟨by simp, by simpa using dropped⟩

def Holds {α : Type} (P : α → Prop) (a : α) (made : List Judgement) : Prop := P a ∧ ¬ RootDropped made

def IsSound (v : Visitor (Remembering σ)) (again : Option Node → Node → Remembering σ (Option Node))
    (watched : Option Node → Node → Remembering (σ × List Judgement) (Option Node)) (n : Node) : Prop :=
  ∀ skip parent, Course (Becomes parent n) (v.visit again skip parent n)
    (v.watched.visit watched skip parent n)

theorem course_visitAll {ns : List Node} (sound : ∀ n ∈ ns, v.IsSound again watched n) (parent : Node) :
    Course (Holds fun ns' => ∀ n ∈ ns', n.isWellFormed = true) (v.visitAll again parent ns)
      (v.watched.visitAll watched parent ns) := by
  induction ns with
  | nil => exact .pure ⟨by simp, not_rootDropped_nil⟩
  | cons n ns ih =>
    rw [List.forall_mem_cons] at sound
    rw [visitAll, visitAll]
    refine (sound.1 false (some parent)).bind fun left made becomes => ?_
    refine (ih sound.2).bind fun ns' more others => .pure ⟨?_, ?_⟩
    · exact List.forall_mem_append.2
        ⟨fun k hk => (becomes.1 k (Option.mem_toList.1 hk)).wellFormed, others.1⟩
    · simp [rootDropped_append, becomes.2, others.2]

/-- A part of a node, of a kind that its place admits. If it cannot be missing it is not missing
afterwards. -/
theorem course_visitOption {admits : Node → Bool} {o : Option Node} {parent : Node} {needed : Bool}
    (stays : ∀ n n', n'.StandsFor n → admits n = true → admits n' = true)
    (empty : needed = true → ∀ pos, admits (emptyBlock pos) = true)
    (wf : ∀ n ∈ o, admits n = true ∧ n.isWellFormed = true) (parentWf : parent.isWellFormed = true)
    (sound : ∀ n ∈ o, v.IsSound again watched n) :
    Course (Holds fun o' => (needed = true → o.isSome = true → o'.isSome = true) ∧
        ∀ n ∈ o', admits n = true ∧ n.isWellFormed = true)
      (v.visitOption again parent needed o) (v.watched.visitOption watched parent needed o) := by
  cases o with
  | none => exact .pure ⟨⟨fun _ missing => missing, by simp⟩, not_rootDropped_nil⟩
  | some n =>
    rw [visitOption, visitOption]
    refine (sound n rfl false (some parent)).bind fun left made becomes => ?_
    have quiet : ¬ RootDropped made := by simp [becomes.2]
    cases left with
    | some n' =>
      have stands := becomes.1 n' rfl
      refine .pure ⟨⟨fun _ _ => rfl, fun k hk => ?_⟩, by rwa [List.append_nil]⟩
      obtain rfl : n' = k := Option.some.inj hk
      exact ⟨stays n n' stands (wf n rfl).1, stands.wellFormed⟩
    | none =>
      refine .pure ⟨?_, by rwa [List.append_nil]⟩
      cases needed with
      | false => exact ⟨by simp, by simp [Node.afterRemoval]⟩
      | true =>
        refine ⟨fun _ _ => rfl, fun k hk => ?_⟩
        obtain rfl : emptyBlock parent.pos = k := Option.some.inj hk
        exact ⟨empty rfl _, isWellFormed_block (isTyped_pos parentWf) (by simp)⟩

theorem course_visitBlock {o : Option Node} {parent : Node} {needed : Bool}
    (wf : ∀ n ∈ o, n.isBlock = true ∧ n.isWellFormed = true) (parentWf : parent.isWellFormed = true)
    (sound : ∀ n ∈ o, v.IsSound again watched n) :
    Course (Holds fun o' => (needed = true → o.isSome = true → o'.isSome = true) ∧
        ∀ n ∈ o', n.isBlock = true ∧ n.isWellFormed = true)
      (v.visitOption again parent needed o) (v.watched.visitOption watched parent needed o) :=
  course_visitOption (fun _ _ stands => stands.block) (fun _ _ => rfl) wf parentWf sound

theorem course_visitFile {file : Option Node} {parent : Node} (isFile : IsFile file)
    (parentWf : parent.isWellFormed = true) (sound : ∀ n ∈ ast? file, v.IsSound again watched n) :
    Course (Holds fun file' => IsFile file' ∧ bareFile file' = bareFile file)
      (v.visitFile again parent file) (v.watched.visitFile watched parent file) := by
  obtain ⟨reference, rfl, isReference, wf⟩ := isFile
  cases reference with
  | fileReference pos path fullPath ast =>
    obtain ⟨typed, trees⟩ := isWellFormed_fileReference.1 wf
    rw [visitFile, visitFile]
    refine (course_visitBlock trees parentWf sound).bind fun ast' made holds => .pure ⟨⟨?_, rfl⟩, ?_⟩
    · exact ⟨_, rfl, rfl, isWellFormed_fileReference.2 ⟨typed, holds.1.2⟩⟩
    · rw [List.append_nil]
      exact holds.2
  | _ => cases isReference

theorem course_onward {α : Type} {P : α → Prop} {x : Remembering σ α}
    {y : Remembering (σ × List Judgement) α} {f : α → Remembering σ (Option Node)}
    {g : α → Remembering (σ × List Judgement) (Option Node)} (parts : Course (Holds P) x y)
    (next : ∀ a, P a → Course (Becomes parent n) (f a) (g a)) :
    Course (Becomes parent n) (x >>= f) (y >>= g) := by
  refine parts.bind fun a made holds => (next a holds.1).imp fun left more becomes => ⟨becomes.1, ?_⟩
  rw [rootDropped_append, becomes.2, or_iff_right holds.2]

/-- One visit, if those to the children are sound and replacements are handled. -/
theorem Repairable.isSound (repairable : v.Repairable) (handles : Handles again watched)
    (wf : n.isWellFormed = true) : v.IsSound again watched n := by
  induction n using childInduction with
  | step n ih =>
    have below : ∀ c ∈ n.children, v.IsSound again watched c := fun c hc =>
      ih c hc (isWellFormed_of_mem_children wf hc)
    intro skip parent
    have rebuilt : ∀ n', n'.isWellFormed = true → n'.bare = n.bare →
        Course (Becomes parent n) (v.left parent n') (v.watched.left parent n') := fun n' wf' same =>
      repairable.course_left (.of_bare_eq wf' same)
    have enters := fun (onward : Remembering σ (Option Node)) onward' =>
      @Repairable.course_entered σ v n parent again watched repairable handles wf skip onward onward'
    cases n with
    | leaf pos head =>
      rw [visit, visit]
      exact enters _ _ (rebuilt _ wf rfl)
    | seq pos head nodes =>
      obtain ⟨typed, headTyped, -⟩ := isWellFormed_seq.1 wf
      rw [visit, visit]
      refine enters _ _ (course_onward (course_visitAll below _) fun nodes' wf' => ?_)
      exact rebuilt _ (isWellFormed_seq.2 ⟨typed, headTyped, wf'⟩) rfl
    | owner pos head block =>
      obtain ⟨typed, headTyped, needed, blocks⟩ := isWellFormed_owner.1 wf
      rw [visit, visit]
      refine enters _ _ (course_onward (course_visitBlock blocks wf fun c hc =>
        below c (Option.mem_toList.2 hc)) fun block' parts => rebuilt _ (isWellFormed_owner.2
          ⟨typed, headTyped, ?_, parts.2⟩) rfl)
      -- Only a head that does without its block can lose it.
      cases needs : head.needsBlock with
      | false => exact .inr rfl
      | true => exact .inl (parts.1 needs (needed.resolve_right (by simp [needs])))
    | fork pos head main alternate =>
      obtain ⟨typed, headTyped, isSome, first, second⟩ := isWellFormed_fork.1 wf
      rw [visit, visit]
      refine enters _ _ (course_onward (course_visitBlock first wf fun c hc =>
        below c (List.mem_append_left _ (Option.mem_toList.2 hc))) fun main' parts => ?_)
      refine course_onward (course_visitOption
        (fun _ _ stands => stands.isAlternativeOf) (by simp) second wf
        fun c hc => below c (List.mem_append_right _ (Option.mem_toList.2 hc))) fun alternate' others => ?_
      · exact rebuilt _ (isWellFormed_fork.2
          ⟨typed, headTyped, parts.1 rfl isSome, parts.2, others.2⟩) rfl
    | inclusion pos file block =>
      obtain ⟨typed, isFile, blocks⟩ := isWellFormed_inclusion.1 wf
      rw [visit, visit]
      refine enters _ _ (course_onward (course_visitFile isFile wf fun c hc =>
        below c (Option.mem_toList.2 hc)) fun file' parts => ?_)
      exact rebuilt _ (isWellFormed_inclusion.2 ⟨typed, parts.1, blocks⟩) (by simp [bare, parts.2])
    | extension pos file =>
      obtain ⟨typed, isFile⟩ := isWellFormed_extension.1 wf
      rw [visit, visit]
      refine enters _ _ (course_onward (course_visitFile isFile wf fun c hc =>
        below c (Option.mem_toList.2 hc)) fun file' parts => ?_)
      exact rebuilt _ (isWellFormed_extension.2 ⟨typed, parts.1⟩) (by simp [bare, parts.2])
    | rawInclusion pos file filters =>
      rw [visit, visit]
      exact enters _ _ (rebuilt _ wf rfl)
    | fileReference pos path fullPath ast =>
      rw [visit, visit]
      exact enters _ _ (rebuilt _ wf rfl)

theorem Repairable.handles_revisit (repairable : v.Repairable) (depth : Nat) :
    Handles (v.revisit depth) (v.watched.revisit depth) := by
  induction depth with
  | zero => exact fun parent n wf => .bound
  | succ depth ih => exact fun parent n wf => repairable.isSound ih wf true parent

section Depth

variable {deeper : Option Node → Node → Remembering σ (Option Node)}

theorem deepens_visitAll {ns : List Node} {parent : Node}
    (visits : ∀ n ∈ ns, ∀ skip parent, Deepens (v.visit again skip parent n) (v.visit deeper skip parent n)) :
    Deepens (v.visitAll again parent ns) (v.visitAll deeper parent ns) := by
  induction ns with
  | nil => exact .refl _
  | cons n ns ih =>
    rw [List.forall_mem_cons] at visits
    rw [visitAll, visitAll]
    exact (visits.1 false (some parent)).bind fun _ => (ih visits.2).bind fun _ => .refl _

theorem deepens_visitOption {o : Option Node} {parent : Node} {needed : Bool}
    (visits : ∀ n ∈ o, ∀ skip parent, Deepens (v.visit again skip parent n) (v.visit deeper skip parent n)) :
    Deepens (v.visitOption again parent needed o) (v.visitOption deeper parent needed o) := by
  cases o with
  | none => exact .refl _
  | some n =>
    rw [visitOption, visitOption]
    exact (visits n rfl false (some parent)).bind fun _ => .refl _

theorem deepens_visitFile {file : Option Node} {parent : Node}
    (visits : ∀ n ∈ ast? file, ∀ skip parent,
      Deepens (v.visit again skip parent n) (v.visit deeper skip parent n)) :
    Deepens (v.visitFile again parent file) (v.visitFile deeper parent file) := by
  cases file with
  | none => exact .refl _
  | some reference =>
    cases reference with
    | fileReference pos path fullPath ast =>
      rw [visitFile, visitFile]
      exact (deepens_visitOption visits).bind fun _ => .refl _
    | _ => exact .refl _

theorem deepens_entered (replaces : ∀ parent n, Deepens (again parent n) (deeper parent n))
    {skip : Bool} {onward onward' : Remembering σ (Option Node)} (further : Deepens onward onward') :
    Deepens (v.entered again skip parent n onward) (v.entered deeper skip parent n onward') := by
  unfold entered
  cases skip with
  | true => exact further
  | false =>
    refine (Deepens.refl _).bind fun verdict => ?_
    cases verdict with
    | keep => exact further
    | replace k => exact replaces parent k
    | remove => exact .refl _

theorem deepens_visit (replaces : ∀ parent n, Deepens (again parent n) (deeper parent n)) (n : Node)
    (skip : Bool) (parent : Option Node) :
    Deepens (v.visit again skip parent n) (v.visit deeper skip parent n) := by
  induction n using childInduction generalizing skip parent with
  | step n below =>
    cases n with
    | seq pos head nodes =>
      rw [visit, visit]
      exact deepens_entered replaces ((deepens_visitAll below).bind fun _ => .refl _)
    | owner pos head block =>
      rw [visit, visit]
      exact deepens_entered replaces
        ((deepens_visitOption fun c hc => below c (Option.mem_toList.2 hc)).bind fun _ => .refl _)
    | fork pos head main alternate =>
      rw [visit, visit]
      refine deepens_entered replaces ((deepens_visitOption fun c hc =>
        below c (List.mem_append_left _ (Option.mem_toList.2 hc))).bind fun _ => ?_)
      exact (deepens_visitOption fun c hc =>
        below c (List.mem_append_right _ (Option.mem_toList.2 hc))).bind fun _ => .refl _
    | inclusion pos file block =>
      rw [visit, visit]
      exact deepens_entered replaces
        ((deepens_visitFile fun c hc => below c (Option.mem_toList.2 hc)).bind fun _ => .refl _)
    | extension pos file =>
      rw [visit, visit]
      exact deepens_entered replaces
        ((deepens_visitFile fun c hc => below c (Option.mem_toList.2 hc)).bind fun _ => .refl _)
    | _ =>
      rw [visit, visit]
      exact deepens_entered replaces (.refl _)

theorem deepens_revisit_succ (v : Visitor (Remembering σ)) (depth : Nat) (parent : Option Node) (n : Node) :
    Deepens (v.revisit depth parent n) (v.revisit (depth + 1) parent n) := by
  induction depth generalizing parent n with
  | zero => exact fun s => .inr ⟨s, rfl⟩
  | succ depth ih => exact deepens_visit ih n true parent

theorem deepens_traverseWithin (v : Visitor (Remembering σ)) (root : Node) {depth depth' : Nat}
    (le : depth ≤ depth') : Deepens (v.traverseWithin depth root) (v.traverseWithin depth' root) := by
  induction le with
  | refl => exact .refl _
  | @step depth' _ ih =>
    refine ih.trans ?_
    exact (deepens_visit (v.deepens_revisit_succ depth') root false none).bind fun _ => .refl _

end Depth

/-- Hooks that keep, drop and replace nodes, each replacement being one that can stand in its place, make
a well-formed tree of a well-formed tree, or leave nothing of it. If the traversal comes to an end, that
is if some bound on replacements inside replacements is not reached, the bound does not matter; the
result is well-formed, or the error says that the root was removed; and it says so just in case a hook
that was called for the root, or for what replaced it, decided to drop it. -/
theorem repair_of_traverseWithin (repairable : v.Repairable) {root : Node}
    (wf : root.isWellFormed = true) (depth : Nat) (s : σ)
    (ends : (v.traverseWithin depth root).outcome s ≠ .error tooDeep) :
    (∀ deeper ≥ depth, v.traverseWithin deeper root s = v.traverseWithin depth root s) ∧
      (v.watched.traverseWithin depth root).outcome (s, []) = (v.traverseWithin depth root).outcome s ∧
      ((∃ tree, (v.traverseWithin depth root).outcome s = .ok tree ∧ tree.isWellFormed = true) ∨
        (v.traverseWithin depth root).outcome s = .error rootRemoved) ∧
      ((v.traverseWithin depth root).outcome s = .error rootRemoved ↔
        RootDropped (v.judgements depth root s)) := by
  refine ⟨fun deeper le => ?_, ?_⟩
  · rcases v.deepens_traverseWithin root le s with same | ⟨s', deep⟩
    · exact same
    · exact absurd (by rw [Remembering.outcome, deep]) ends
  · rcases repairable.isSound (repairable.handles_revisit depth) wf false none s [] with
      ⟨left, s', made, run, watch, stands, dropped⟩ | ⟨s', made, run, -⟩
    · simp only [Remembering.outcome, judgements, traverseWithin, Remembering.bind_ok run,
        Remembering.bind_ok watch]
      cases left with
      | some tree =>
        have kept : ¬ RootDropped made := by simp [dropped]
        refine ⟨rfl, .inl ⟨tree, rfl, (stands tree rfl).wellFormed⟩, iff_of_false ?_ kept⟩
        rintro ⟨⟩
      | none => exact ⟨rfl, .inr rfl, fun _ => dropped.2 ⟨rfl, rfl⟩, fun _ => rfl⟩
    · exact absurd (by rw [Remembering.outcome, traverseWithin, Remembering.bind_error run]) ends

end Visitor

/-- Hooks that count the blocks they enter and drop every second one, and that put an empty block in the
place of every text they leave. -/
def everySecondBlock : Visitor (Remembering Nat) := fun kind =>
  { enter := if kind = .block then
      some fun _ _ count => .ok (if count % 2 = 0 then .keep else .remove) (count + 1) else none
    leave := if kind = .text then some fun _ _ => return .replace .emptyBlock else none }

theorem repairable_everySecondBlock : everySecondBlock.Repairable := by
  intro n hook called wf parent count
  rcases called with called | called
  · simp only [everySecondBlock, Option.ite_none_right_eq_some] at called
    obtain ⟨-, ⟨⟩⟩ := called
    refine ⟨_, _, rfl, fun n' h => ?_⟩
    split at h <;> cases h
  · simp only [everySecondBlock, Option.ite_none_right_eq_some] at called
    obtain ⟨-, ⟨⟩⟩ := called
    refine ⟨_, _, rfl, fun n' h => ?_⟩
    obtain rfl : Node.emptyBlock = n' := Verdict.replace.inj h
    exact ⟨by decide +kernel, fun _ => rfl, fun _ => .inr rfl⟩

theorem repair_branchingPage :
    (∃ tree, (everySecondBlock.traverseWithin 1 branchingPage).outcome 0 = .ok tree ∧
      tree.isWellFormed = true) ∧
      RootDropped (everySecondBlock.judgements 1 branchingPage 1) := by
  have wf : branchingPage.isWellFormed = true := by decide +kernel
  have kept : ∃ tree, (everySecondBlock.traverseWithin 1 branchingPage).outcome 0 = .ok tree := ⟨_, rfl⟩
  obtain ⟨tree, kept⟩ := kept
  have dropped : (everySecondBlock.traverseWithin 1 branchingPage).outcome 1 = .error Node.rootRemoved := rfl
  constructor
  · have repair := everySecondBlock.repair_of_traverseWithin repairable_everySecondBlock wf 1 0
      (by simp [kept])
    rcases repair.2.2.1 with found | removed
    · exact found
    · simp [kept] at removed
  · have ends : (everySecondBlock.traverseWithin 1 branchingPage).outcome 1 ≠ .error tooDeep := by
      simp [dropped, Node.rootRemoved, tooDeep]
    exact (Visitor.repair_of_traverseWithin repairable_everySecondBlock wf 1 1 ends).2.2.2.1 dropped

end PugComponents

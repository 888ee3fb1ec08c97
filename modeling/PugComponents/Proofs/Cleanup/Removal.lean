import PugComponents.Cleanup
import PugComponents.Proofs.Outcome
import PugComponents.Proofs.Tree.WellFormed
import PugComponents.Proofs.Value

/-! What the removal of definitions does to a well-formed tree. Definitions stand in blocks there, so
every node that is kept is rebuilt without them, and no required block is lost. -/

namespace PugComponents.Node

theorem isSome_of_withoutDefinitions {n : Node} {o : Option Node} (h : withoutDefinitions n = .ok o) :
    o.isSome = !n.isDefinition := by
  have other : n.isDefinition = false → o.isSome = true → o.isSome = !n.isDefinition := by
    intro notDefinition isSome
    rw [notDefinition, isSome]
    rfl
  cases n with
  | owner pos head block =>
    rw [withoutDefinitions] at h
    cases isDefinition : (owner pos head block).isDefinition with
    | true =>
      rw [isDefinition, if_pos rfl, Outcome.pure_eq_ok] at h
      simp [← h]
    | false =>
      rw [isDefinition, if_neg Bool.false_ne_true, Outcome.bind_eq_ok] at h
      obtain ⟨_, _, h⟩ := h
      rw [Outcome.pure_eq_ok] at h
      simp [← h]
  | fork =>
    simp only [withoutDefinitions, Outcome.bind_eq_ok, Outcome.pure_eq_ok] at h
    obtain ⟨_, _, _, _, rfl⟩ := h
    exact other rfl rfl
  | seq | inclusion | extension =>
    simp only [withoutDefinitions, Outcome.bind_eq_ok, Outcome.pure_eq_ok] at h
    obtain ⟨_, _, rfl⟩ := h
    exact other rfl rfl
  | leaf | rawInclusion | fileReference =>
    simp only [withoutDefinitions, Except.ok.injEq] at h
    subst h
    exact other rfl rfl

theorem withoutDefinitions_of_isDefinition {n : Node} (isDefinition : n.isDefinition = true) :
    withoutDefinitions n = .ok none := by
  obtain ⟨pos, element, block, rfl, -⟩ := exists_tag_of_isTagNamed isDefinition
  rw [withoutDefinitions, if_pos isDefinition]
  rfl

inductive Remaining : Node → List Node → Prop where
  | dropped {n : Node} (isDefinition : n.isDefinition = true) : Remaining n []
  | kept {n n' : Node} (notDefinition : n.isDefinition = false)
    (run : withoutDefinitions n = .ok (some n')) : Remaining n [n']

theorem remaining_of_withoutDefinitions {n : Node} {o : Option Node}
    (h : withoutDefinitions n = .ok o) : Remaining n o.toList := by
  have found := isSome_of_withoutDefinitions h
  cases o with
  | none => exact .dropped (by simpa using found)
  | some n' => exact .kept (by simpa using found) h

theorem withoutDefinitionsAll_eq_ok {ns out : List Node} (h : withoutDefinitionsAll ns = .ok out) :
    ∃ parts, List.Forall₂ Remaining ns parts ∧ out = parts.flatten := by
  induction ns generalizing out with
  | nil =>
    simp only [withoutDefinitionsAll, Except.ok.injEq] at h
    exact ⟨[], .nil, h.symm⟩
  | cons n ns ih =>
    simp only [withoutDefinitionsAll, Outcome.bind_eq_ok, Outcome.pure_eq_ok] at h
    obtain ⟨first, run, others, rest, rfl⟩ := h
    obtain ⟨parts, related, rfl⟩ := ih rest
    exact ⟨first.toList :: parts, .cons (remaining_of_withoutDefinitions run) related, rfl⟩

theorem withoutDefinitionsOption_eq_ok {needed : Bool} {pos : Position} {o o' : Option Node}
    (untagged : ∀ c ∈ o, c.tag? = none) (h : withoutDefinitionsOption needed pos o = .ok o') :
    Option.Rel (fun c c' => withoutDefinitions c = .ok (some c')) o o' := by
  cases o with
  | none =>
    simp only [withoutDefinitionsOption, Except.ok.injEq] at h
    exact h ▸ .none
  | some n =>
    rw [withoutDefinitionsOption, Outcome.bind_eq_ok] at h
    obtain ⟨found, run, h⟩ := h
    cases found with
    | some n' =>
      simp only [Outcome.pure_eq_ok] at h
      exact h ▸ .some run
    | none =>
      have lost := isSome_of_withoutDefinitions run
      simp [isDefinition, isTagNamed, untagged n rfl] at lost

theorem withoutDefinitionsFile_eq_ok {file file' : Option Node}
    (untagged : ∀ c ∈ ast? file, c.tag? = none) (h : withoutDefinitionsFile file = .ok file') :
    RebuiltFile (fun c c' => withoutDefinitions c = .ok (some c')) file file' := by
  unfold withoutDefinitionsFile at h
  split at h
  · simp only [Except.ok.injEq] at h
    exact h ▸ .none
  · rename_i pos path fullPath ast
    simp only [Outcome.bind_eq_ok, Outcome.pure_eq_ok] at h
    obtain ⟨ast', run, rfl⟩ := h
    exact .some pos path fullPath (withoutDefinitionsOption_eq_ok untagged run)
  · cases h

theorem withoutDefinitions_eq_ok {n n' : Node} (wf : n.isWellFormed = true)
    (h : withoutDefinitions n = .ok (some n')) :
    Rebuilt Remaining (fun c c' => withoutDefinitions c = .ok (some c')) n n' := by
  have untagged : n.isBlock = false → ∀ c ∈ n.children, c.tag? = none :=
    fun notBlock c hc => tag?_of_mem_children wf notBlock hc
  cases n with
  | leaf pos head =>
    simp only [withoutDefinitions, Except.ok.injEq, Option.some.injEq] at h
    exact h ▸ .leaf pos head
  | seq pos head nodes =>
    simp only [withoutDefinitions, Outcome.bind_eq_ok, Outcome.pure_eq_ok, Option.some.injEq] at h
    obtain ⟨nodes', run, rfl⟩ := h
    obtain ⟨parts, related, rfl⟩ := withoutDefinitionsAll_eq_ok run
    exact .seq pos head related
  | owner pos head block =>
    have found := isSome_of_withoutDefinitions h
    have notDefinition : (owner pos head block).isDefinition = false := by simpa using found
    simp only [withoutDefinitions, notDefinition, Bool.false_eq_true, if_false, Outcome.bind_eq_ok,
      Outcome.pure_eq_ok, Option.some.injEq] at h
    obtain ⟨block', run, rfl⟩ := h
    refine .owner pos head (withoutDefinitionsOption_eq_ok ?_ run)
    exact fun c hc => untagged rfl c (Option.mem_toList.2 hc)
  | fork pos head main alternate =>
    simp only [withoutDefinitions, Outcome.bind_eq_ok, Outcome.pure_eq_ok, Option.some.injEq] at h
    obtain ⟨main', first, alternate', second, rfl⟩ := h
    have both := untagged rfl
    simp only [children, List.mem_append, Option.mem_toList] at both
    exact .fork pos head (withoutDefinitionsOption_eq_ok (fun c hc => both c (.inl hc)) first)
      (withoutDefinitionsOption_eq_ok (fun c hc => both c (.inr hc)) second)
  | inclusion pos file block =>
    simp only [withoutDefinitions, Outcome.bind_eq_ok, Outcome.pure_eq_ok, Option.some.injEq] at h
    obtain ⟨file', run, rfl⟩ := h
    refine .inclusion pos block (withoutDefinitionsFile_eq_ok ?_ run)
    exact fun c hc => untagged rfl c (Option.mem_toList.2 hc)
  | extension pos file =>
    simp only [withoutDefinitions, Outcome.bind_eq_ok, Outcome.pure_eq_ok, Option.some.injEq] at h
    obtain ⟨file', run, rfl⟩ := h
    refine .extension pos (withoutDefinitionsFile_eq_ok ?_ run)
    exact fun c hc => untagged rfl c (Option.mem_toList.2 hc)
  | rawInclusion pos file filters =>
    simp only [withoutDefinitions, Except.ok.injEq, Option.some.injEq] at h
    exact h ▸ .rawInclusion pos file filters
  | fileReference pos path fullPath ast =>
    simp only [withoutDefinitions, Except.ok.injEq, Option.some.injEq] at h
    exact h ▸ .fileReference pos path fullPath ast

/-- A node of a block that is dropped as a definition, or one that is kept and changed by `N`. -/
inductive Kept (N : Node → Node → Prop) : Node → List Node → Prop where
  | dropped {c : Node} (isDefinition : c.isDefinition = true) : Kept N c []
  | kept {c c' : Node} (related : N c c') : Kept N c [c']

theorem exists_kept_of_mem {N : Node → Node → Prop} {n n' : Node} (built : Rebuilt (Kept N) N n n')
    {m : Node} (hm : m ∈ n'.children) : ∃ c ∈ n.children, N c m := by
  obtain ⟨c, hc, part, piece, hm⟩ := built.exists_piece_of_mem hm
  refine ⟨c, hc, ?_⟩
  cases piece with
  | single _ related => exact List.mem_singleton.1 hm ▸ related
  | listed _ related =>
    cases related with
    | dropped => cases hm
    | kept related => exact List.mem_singleton.1 hm ▸ related

/-- What holds of nodes rebuilt without definitions from pieces of which it holds, holds of every node
that is kept. -/
theorem remove_induction {N : Node → Node → Prop}
    (rebuilt : ∀ n n', n.isWellFormed = true → n.isDefinition = false → Rebuilt (Kept N) N n n' →
      N n n')
    {n n' : Node} (wf : n.isWellFormed = true) (h : withoutDefinitions n = .ok (some n')) : N n n' := by
  induction n using childInduction generalizing n' with
  | step n ih =>
    have found := isSome_of_withoutDefinitions h
    refine rebuilt n n' wf (by simpa using found) ((withoutDefinitions_eq_ok wf h).imp ?_ ?_)
    · intro c hc part remaining
      cases remaining with
      | dropped isDefinition => exact .dropped isDefinition
      | kept _ run => exact .kept (ih c hc (isWellFormed_of_mem_children wf hc) run)
    · intro c hc c' run
      exact ih c hc (isWellFormed_of_mem_children wf hc) run

theorem isWellFormed_of_withoutDefinitions {n n' : Node} (wf : n.isWellFormed = true)
    (h : withoutDefinitions n = .ok (some n')) : n'.isWellFormed = true ∧ n'.bare = n.bare := by
  refine remove_induction (N := fun n n' => n'.isWellFormed = true ∧ n'.bare = n.bare) ?_ wf h
  intro n n' wf _ built
  refine ⟨built.isWellFormed wf (fun _ c _ c' related => related.2) ?_, built.bare_eq⟩
  intro m hm
  obtain ⟨c, hc, related⟩ := exists_kept_of_mem built hm
  exact related.1

theorem lacks_isDefinition_of_withoutDefinitions {n n' : Node} (wf : n.isWellFormed = true)
    (h : withoutDefinitions n = .ok (some n')) : n'.Lacks isDefinition := by
  refine remove_induction (N := fun _ n' => n'.Lacks isDefinition) ?_ wf h
  intro n n' _ notDefinition built
  refine lacks_iff.2 ⟨isDefinition_eq_of_tag?_eq built.tag?_eq ▸ notDefinition, ?_⟩
  intro m hm
  obtain ⟨c, hc, related⟩ := exists_kept_of_mem built hm
  exact related

theorem Inherited.of_withoutDefinitions {Q : Node → Prop} (inherited : Inherited Q) {n n' : Node}
    (wf : n.isWellFormed = true) (h : withoutDefinitions n = .ok (some n')) (holds : Q n) : Q n' := by
  refine remove_induction (N := fun n n' => Q n → Q n') ?_ wf h holds
  intro n n' _ _ built holds
  refine inherited.rebuilt holds built.bare_eq fun m hm => ?_
  obtain ⟨c, hc, related⟩ := exists_kept_of_mem built hm
  exact related (inherited.child holds hc)

theorem callFree_of_withoutDefinitions {n n' : Node} (wf : n.isWellFormed = true)
    (h : withoutDefinitions n = .ok (some n')) (free : n.CallFree) : n'.CallFree :=
  (inherited_lacks fun _ _ => isCall_eq_of_tag?_eq).of_withoutDefinitions wf h free

section Success

theorem exists_withoutDefinitionsAll {ns : List Node}
    (each : ∀ n ∈ ns, ∃ o, withoutDefinitions n = .ok o) :
    ∃ out, withoutDefinitionsAll ns = .ok out := by
  induction ns with
  | nil => exact ⟨[], by simp [withoutDefinitionsAll]⟩
  | cons n ns ih =>
    rw [List.forall_mem_cons] at each
    obtain ⟨o, first⟩ := each.1
    obtain ⟨others, rest⟩ := ih each.2
    refine ⟨o.toList ++ others, ?_⟩
    simp [withoutDefinitionsAll, first, rest, Outcome.bind_eq_ok]

theorem exists_withoutDefinitionsOption (needed : Bool) (pos : Position) {o : Option Node}
    (each : ∀ c ∈ o, ∃ o, withoutDefinitions c = .ok o) :
    ∃ o', withoutDefinitionsOption needed pos o = .ok o' := by
  cases o with
  | none => exact ⟨none, by simp [withoutDefinitionsOption]⟩
  | some n =>
    obtain ⟨found, run⟩ := each n rfl
    cases found with
    | none =>
      exact ⟨afterRemoval needed pos, by simp [withoutDefinitionsOption, run, Outcome.bind_eq_ok]⟩
    | some n' => exact ⟨some n', by simp [withoutDefinitionsOption, run, Outcome.bind_eq_ok]⟩

theorem exists_withoutDefinitionsFile {file : Option Node} (isFile : IsFile file)
    (each : ∀ c ∈ ast? file, ∃ o, withoutDefinitions c = .ok o) :
    ∃ file', withoutDefinitionsFile file = .ok file' := by
  obtain ⟨n, rfl, isFile, -⟩ := isFile
  cases n with
  | fileReference pos path fullPath ast =>
    have run : ∃ ast', withoutDefinitionsOption false pos ast = .ok ast' :=
      exists_withoutDefinitionsOption false pos each
    obtain ⟨ast', run⟩ := run
    exact ⟨_, by rw [withoutDefinitionsFile, run]; rfl⟩
  | _ => cases isFile

theorem exists_withoutDefinitions {n : Node} (wf : n.isWellFormed = true) :
    ∃ o, withoutDefinitions n = .ok o := by
  induction n using childInduction with
  | step n ih =>
    have below : ∀ c ∈ n.children, ∃ o, withoutDefinitions c = .ok o :=
      fun c hc => ih c hc (isWellFormed_of_mem_children wf hc)
    cases n with
    | leaf => exact ⟨_, by rw [withoutDefinitions]⟩
    | seq pos head nodes =>
      have run : ∃ nodes', withoutDefinitionsAll nodes = .ok nodes' := exists_withoutDefinitionsAll below
      obtain ⟨nodes', run⟩ := run
      exact ⟨_, by rw [withoutDefinitions, run]; rfl⟩
    | owner pos head block =>
      obtain ⟨block', run⟩ := exists_withoutDefinitionsOption head.needsBlock pos
        fun c hc => below c (Option.mem_toList.2 hc)
      rw [withoutDefinitions, run]
      split <;> exact ⟨_, rfl⟩
    | fork pos head main alternate =>
      simp only [children, List.mem_append, Option.mem_toList] at below
      obtain ⟨main', first⟩ := exists_withoutDefinitionsOption true pos
        fun c hc => below c (.inl hc)
      obtain ⟨alternate', second⟩ := exists_withoutDefinitionsOption false pos
        fun c hc => below c (.inr hc)
      exact ⟨_, by rw [withoutDefinitions, first, second]; rfl⟩
    | inclusion pos file block =>
      obtain ⟨file', run⟩ := exists_withoutDefinitionsFile (isWellFormed_inclusion.1 wf).2.1
        fun c hc => below c (Option.mem_toList.2 hc)
      exact ⟨_, by rw [withoutDefinitions, run]; rfl⟩
    | extension pos file =>
      obtain ⟨file', run⟩ := exists_withoutDefinitionsFile (isWellFormed_extension.1 wf).2
        fun c hc => below c (Option.mem_toList.2 hc)
      exact ⟨_, by rw [withoutDefinitions, run]; rfl⟩
    | rawInclusion => exact ⟨_, by rw [withoutDefinitions]⟩
    | fileReference => exact ⟨_, by rw [withoutDefinitions]⟩

end Success

theorem withoutDefinitions_of_removeDefinitions {root kept : Node}
    (h : root.removeDefinitions = .ok kept) : root.withoutDefinitions = .ok (some kept) := by
  rw [removeDefinitions, Outcome.bind_eq_ok] at h
  obtain ⟨found, run, h⟩ := h
  cases found with
  | none => cases h
  | some n =>
    rw [Outcome.pure_eq_ok] at h
    rw [run, h]

theorem removeDefinitions_eq_self {n : Node} (wf : n.isWellFormed = true)
    (undefined : n.Lacks isDefinition) : n.removeDefinitions = .ok n := by
  obtain ⟨o, removal⟩ := exists_withoutDefinitions wf
  have isKept := isSome_of_withoutDefinitions removal
  rw [(lacks_iff.1 undefined).1, Bool.not_false] at isKept
  obtain ⟨kept, rfl⟩ := Option.isSome_iff_exists.1 isKept
  have same : kept = n := by
    refine remove_induction (N := fun n n' => n.Lacks isDefinition → n' = n) ?_ wf removal undefined
    intro n n' _ _ built undefined
    refine built.eq_self ?_ fun c hc c' related => related (undefined.of_mem_children hc)
    intro _ c hc part piece
    have below := undefined.of_mem_children hc
    cases piece with
    | dropped isDefinition =>
      rw [(lacks_iff.1 below).1] at isDefinition
      cases isDefinition
    | kept related => rw [related below]
  rw [removeDefinitions, removal, same]
  rfl

section Values

open Outcome

def remainder (n : Node) : Option (List Node) := n.withoutDefinitions.toOption.map Option.toList

theorem toOption_withoutDefinitionsAll (ns : List Node) :
    (withoutDefinitionsAll ns).toOption = gather remainder ns := by
  induction ns with
  | nil => simp only [withoutDefinitionsAll, gather_nil, toOption_ok]
  | cons n ns ih =>
    simp only [withoutDefinitionsAll, gather_cons, remainder, toOption_bind, toOption_pure, ← ih,
      Option.bind_map]
    rfl

theorem toOption_removeDefinitions_seq {pos : Position} {head : Sequence} (nodes : List Node) :
    (Node.seq pos head nodes).removeDefinitions.toOption =
      (gather remainder nodes).map (.seq pos head) := by
  rw [← toOption_withoutDefinitionsAll, removeDefinitions, withoutDefinitions]
  cases withoutDefinitionsAll nodes <;> rfl

end Values

end PugComponents.Node

import PugComponents.Cleanup
import PugComponents.Proofs.Outcome
import PugComponents.Proofs.Tree.WellFormed
import PugComponents.Proofs.Value

/-! What flattening does to a well-formed tree. A node whose file is resolved gives way to the flattened
tree of the file; every other node is rebuilt, and plain blocks among the nodes of a block dissolve.
A resolved tree is a block, so it does not matter that it stands for a file. -/

namespace PugComponents.Node

def isPlainBlock : Node → Bool
  | .seq _ .plain _ => true
  | _ => false

theorem isBlock_of_isPlainBlock {n : Node} (h : n.isPlainBlock = true) : n.isBlock = true := by
  cases n with
  | seq => rfl
  | _ => cases h

def isResolved : Node → Bool
  | .inclusion _ file _ => (ast? file).isSome
  | .extension _ file => (ast? file).isSome
  | _ => false

def isNested (n : Node) : Bool := n.isBlock && n.children.any isPlainBlock

/-- What a node contributes to the block in which it stands. -/
def spliced : Node → List Node
  | .seq _ .plain nodes => nodes
  | n => [n]

theorem splice_eq_flatMap (ns : List Node) : splice ns = ns.flatMap spliced := by
  induction ns with
  | nil => rfl
  | cons n ns ih =>
    rw [List.flatMap_cons, ← ih]
    cases n with
    | seq pos head nodes => cases head <;> rfl
    | _ => rfl

theorem spliced_cases (n : Node) :
    n.isPlainBlock = true ∧ n.spliced = n.children ∨ n.isPlainBlock = false ∧ n.spliced = [n] := by
  cases n with
  | seq pos head nodes =>
    cases head with
    | plain => exact .inl ⟨rfl, rfl⟩
    | named name mode => exact .inr ⟨rfl, rfl⟩
  | _ => exact .inr ⟨rfl, rfl⟩

theorem flattenNode_true_of_isBlock {n : Node} (h : n.isBlock = true) :
    flattenNode true n = flattenNode false n := by
  cases n with
  | seq => simp only [flattenNode]
  | _ => cases h

theorem flattenAll_eq_ok {ns out : List Node} (h : flattenAll ns = .ok out) :
    List.Forall₂ (fun c c' => flattenNode false c = .ok c') ns out := by
  induction ns generalizing out with
  | nil =>
    simp only [flattenAll, Except.ok.injEq] at h
    exact h ▸ .nil
  | cons n ns ih =>
    simp only [flattenAll, Outcome.bind_eq_ok, Outcome.pure_eq_ok] at h
    obtain ⟨n', run, others, rest, rfl⟩ := h
    exact .cons run (ih rest)

theorem flattenOption_eq_ok {o o' : Option Node} (h : flattenOption o = .ok o') :
    Option.Rel (fun c c' => flattenNode false c = .ok c') o o' := by
  cases o with
  | none =>
    simp only [flattenOption, Except.ok.injEq] at h
    exact h ▸ .none
  | some n =>
    simp only [flattenOption, Outcome.bind_eq_ok, Outcome.pure_eq_ok] at h
    obtain ⟨n', run, rfl⟩ := h
    exact .some run

theorem fileTree_eq_ok {file found : Option Node} (wf : IsFile file) (h : fileTree file = .ok found) :
    (∃ ast flat, ast? file = some ast ∧ found = some flat ∧ flattenNode false ast = .ok flat) ∨
      found = none ∧ ∃ pos path fullPath, file = some (.fileReference pos path fullPath none) := by
  have blocks : ∀ ast ∈ ast? file, ast.isBlock = true :=
    fun ast hast => (isWellFormed_of_mem_file wf hast).1
  unfold fileTree at h
  split at h
  · simp only [Except.ok.injEq] at h
    exact .inr ⟨h.symm, _, _, _, rfl⟩
  · rename_i ast
    simp only [Outcome.bind_eq_ok, Outcome.pure_eq_ok] at h
    obtain ⟨flat, run, rfl⟩ := h
    rw [flattenNode_true_of_isBlock (blocks ast rfl)] at run
    exact .inl ⟨ast, flat, rfl, rfl, run⟩
  · cases h

def Spliced (N : Node → Node → Prop) (c : Node) (part : List Node) : Prop :=
  ∃ c', N c c' ∧ part = c'.spliced

theorem spliced_of_forall₂ {N : Node → Node → Prop} {ns out : List Node} (h : List.Forall₂ N ns out) :
    ∃ parts, List.Forall₂ (Spliced N) ns parts ∧ splice out = parts.flatten := by
  refine ⟨out.map spliced, ?_, ?_⟩
  · rw [List.forall₂_map_right_iff]
    exact h.imp fun c c' related => ⟨c', related, rfl⟩
  · rw [splice_eq_flatMap, List.flatMap_def]

theorem flattenNode_eq_ok {n n' : Node} (wf : n.isWellFormed = true) (h : flattenNode false n = .ok n') :
    (∃ ast, n.isResolved = true ∧ n.children = [ast] ∧ flattenNode false ast = .ok n') ∨
      n.isResolved = false ∧ Rebuilt (Spliced fun c c' => flattenNode false c = .ok c')
        (fun c c' => flattenNode false c = .ok c') n n' := by
  cases n with
  | leaf pos head =>
    simp only [flattenNode, Except.ok.injEq] at h
    exact .inr ⟨rfl, h ▸ .leaf pos head⟩
  | seq pos head nodes =>
    simp only [flattenNode, Outcome.bind_eq_ok, Outcome.pure_eq_ok] at h
    obtain ⟨nodes', run, rfl⟩ := h
    obtain ⟨parts, related, eq⟩ := spliced_of_forall₂ (flattenAll_eq_ok run)
    rw [eq]
    exact .inr ⟨rfl, .seq pos head related⟩
  | owner pos head block =>
    simp only [flattenNode, Outcome.bind_eq_ok, Outcome.pure_eq_ok] at h
    obtain ⟨block', run, rfl⟩ := h
    exact .inr ⟨rfl, .owner pos head (flattenOption_eq_ok run)⟩
  | fork pos head main alternate =>
    simp only [flattenNode, Outcome.bind_eq_ok, Outcome.pure_eq_ok] at h
    obtain ⟨main', first, alternate', second, rfl⟩ := h
    exact .inr ⟨rfl, .fork pos head (flattenOption_eq_ok first) (flattenOption_eq_ok second)⟩
  | inclusion pos file block =>
    simp only [flattenNode, Bool.false_eq_true, if_false, Outcome.bind_eq_ok, Outcome.pure_eq_ok] at h
    obtain ⟨found, run, rfl⟩ := h
    have file := (isWellFormed_inclusion.1 wf).2.1
    rcases fileTree_eq_ok file run with ⟨ast, flat, eq, rfl, below⟩ | ⟨rfl, _, _, _, rfl⟩
    · exact .inl ⟨ast, by simp [isResolved, eq], by simp [children, eq], below⟩
    · exact .inr ⟨rfl, .inclusion pos block (.some _ _ _ .none)⟩
  | extension pos file =>
    simp only [flattenNode, Bool.false_eq_true, if_false, Outcome.bind_eq_ok, Outcome.pure_eq_ok] at h
    obtain ⟨found, run, rfl⟩ := h
    have file := (isWellFormed_extension.1 wf).2
    rcases fileTree_eq_ok file run with ⟨ast, flat, eq, rfl, below⟩ | ⟨rfl, _, _, _, rfl⟩
    · exact .inl ⟨ast, by simp [isResolved, eq], by simp [children, eq], below⟩
    · exact .inr ⟨rfl, .extension pos (.some _ _ _ .none)⟩
  | rawInclusion pos file filters =>
    simp only [flattenNode, Except.ok.injEq] at h
    exact .inr ⟨rfl, h ▸ .rawInclusion pos file filters⟩
  | fileReference pos path fullPath ast =>
    simp only [flattenNode, Except.ok.injEq] at h
    exact .inr ⟨rfl, h ▸ .fileReference pos path fullPath ast⟩

/-- What passes from the tree of a file to the node that refers to it, and holds of nodes rebuilt from
pieces of which it holds, holds of every node that is flattened. -/
theorem flatten_induction {N : Node → Node → Prop}
    (resolved : ∀ n ast n', n.isResolved = true → n.children = [ast] → N ast n' → N n n')
    (rebuilt : ∀ n n', n.isWellFormed = true → n.isResolved = false → Rebuilt (Spliced N) N n n' →
      N n n')
    {n n' : Node} (wf : n.isWellFormed = true) (h : flattenNode false n = .ok n') : N n n' := by
  induction n using childInduction generalizing n' with
  | step n ih =>
    have below : ∀ c ∈ n.children, ∀ c', flattenNode false c = .ok c' → N c c' :=
      fun c hc c' run => ih c hc (isWellFormed_of_mem_children wf hc) run
    rcases flattenNode_eq_ok wf h with ⟨ast, isResolved, child, run⟩ | ⟨notResolved, built⟩
    · exact resolved n ast n' isResolved child (below ast (by simp [child]) n' run)
    · refine rebuilt n n' wf notResolved (built.imp ?_ below)
      rintro c hc part ⟨c', run, rfl⟩
      exact ⟨c', below c hc c' run, rfl⟩

theorem exists_flat_of_mem {N : Node → Node → Prop} {n n' : Node} (built : Rebuilt (Spliced N) N n n')
    {m : Node} (hm : m ∈ n'.children) :
    ∃ c ∈ n.children, ∃ c', N c c' ∧ (m = c' ∧ (n.isBlock = true → m.isPlainBlock = false) ∨
      c'.isBlock = true ∧ m ∈ c'.children) := by
  obtain ⟨c, hc, part, piece, hm⟩ := built.exists_piece_of_mem hm
  cases piece with
  | single notBlock related =>
    refine ⟨c, hc, m, List.mem_singleton.1 hm ▸ related, .inl ⟨rfl, ?_⟩⟩
    intro isBlock
    rw [isBlock] at notBlock
    cases notBlock
  | listed _ related =>
    obtain ⟨c', related, rfl⟩ := related
    refine ⟨c, hc, c', related, ?_⟩
    rcases spliced_cases c' with ⟨plain, eq⟩ | ⟨notPlain, eq⟩
    · rw [eq] at hm
      exact .inr ⟨isBlock_of_isPlainBlock plain, hm⟩
    · rw [eq, List.mem_singleton] at hm
      exact .inl ⟨hm, fun _ => hm ▸ notPlain⟩

theorem isWellFormed_of_flattenNode {n n' : Node} (wf : n.isWellFormed = true)
    (h : flattenNode false n = .ok n') :
    n'.isWellFormed = true ∧ (n.isResolved = false → n'.bare = n.bare) := by
  refine flatten_induction
    (N := fun n n' => n'.isWellFormed = true ∧ (n.isResolved = false → n'.bare = n.bare)) ?_ ?_ wf h
  · intro n ast n' isResolved _ ih
    refine ⟨ih.1, fun notResolved => ?_⟩
    rw [isResolved] at notResolved
    cases notResolved
  · intro n n' wf _ built
    refine ⟨built.isWellFormed wf ?_ ?_, fun _ => built.bare_eq⟩
    · intro notBlock c hc c' related
      refine related.2 ?_
      -- Outside of blocks there is no node that refers to a file.
      have kind := isBlock_or_isConditional wf notBlock hc
      cases c with
      | inclusion | extension => simp [isBlock, isConditional] at kind
      | _ => rfl
    · intro m hm
      obtain ⟨c, hc, c', related, ⟨rfl, -⟩ | ⟨-, hm⟩⟩ := exists_flat_of_mem built hm
      · exact related.1
      · exact isWellFormed_of_mem_children related.1 hm

theorem isResolved_eq_of_rebuilt {P : Node → List Node → Prop} {R : Node → Node → Prop} {n n' : Node}
    (h : Rebuilt P R n n') : n'.isResolved = n.isResolved := by
  have same : ∀ file file', RebuiltFile R file file' → (ast? file').isSome = (ast? file).isSome := by
    intro file file' tree
    cases tree with
    | none => rfl
    | some pos path fullPath child => exact isSome_eq_of_rel child
  cases h with
  | inclusion pos block tree => exact same _ _ tree
  | extension pos tree => exact same _ _ tree
  | _ => rfl

theorem lacks_isResolved_of_flattenNode {n n' : Node} (wf : n.isWellFormed = true)
    (h : flattenNode false n = .ok n') : n'.Lacks isResolved := by
  refine flatten_induction (N := fun _ n' => n'.Lacks isResolved) ?_ ?_ wf h
  · exact fun n ast n' _ _ ih => ih
  · intro n n' _ notResolved built
    refine lacks_iff.2 ⟨(isResolved_eq_of_rebuilt built).trans notResolved, ?_⟩
    intro m hm
    obtain ⟨c, hc, c', related, ⟨rfl, -⟩ | ⟨-, hm⟩⟩ := exists_flat_of_mem built hm
    · exact related
    · exact related.of_mem_children hm

theorem lacks_isNested_of_flattenNode {n n' : Node} (wf : n.isWellFormed = true)
    (h : flattenNode false n = .ok n') : n'.Lacks isNested := by
  refine flatten_induction (N := fun _ n' => n'.Lacks isNested) ?_ ?_ wf h
  · exact fun n ast n' _ _ ih => ih
  · intro n n' _ _ built
    have below : ∀ m ∈ n'.children, m.Lacks isNested := by
      intro m hm
      obtain ⟨c, hc, c', related, ⟨rfl, -⟩ | ⟨-, hm⟩⟩ := exists_flat_of_mem built hm
      · exact related
      · exact related.of_mem_children hm
    refine lacks_iff.2 ⟨?_, below⟩
    by_contra nested
    rw [Bool.not_eq_false, isNested, Bool.and_eq_true, List.any_eq_true] at nested
    obtain ⟨isBlock, m, hm, plain⟩ := nested
    rw [← isBlock_bare, built.bare_eq, isBlock_bare] at isBlock
    obtain ⟨c, hc, c', related, ⟨-, notPlain⟩ | ⟨isBlock', hm'⟩⟩ := exists_flat_of_mem built hm
    · rw [notPlain isBlock] at plain
      cases plain
    · -- The plain block stood directly in the block to which a child was flattened.
      have free := (lacks_iff.1 related).1
      rw [isNested, isBlock', Bool.true_and, List.any_eq_false] at free
      exact free m hm' plain

theorem Inherited.of_flattenNode {Q : Node → Prop} (inherited : Inherited Q) {n n' : Node}
    (wf : n.isWellFormed = true) (h : flattenNode false n = .ok n') (holds : Q n) : Q n' := by
  refine flatten_induction (N := fun n n' => Q n → Q n') ?_ ?_ wf h holds
  · intro n ast n' _ child ih holds
    exact ih (inherited.child holds (by simp [child]))
  · intro n n' _ _ built holds
    refine inherited.rebuilt holds built.bare_eq fun m hm => ?_
    obtain ⟨c, hc, c', related, ⟨rfl, -⟩ | ⟨-, hm⟩⟩ := exists_flat_of_mem built hm
    · exact related (inherited.child holds hc)
    · exact inherited.child (related (inherited.child holds hc)) hm

theorem lacks_of_flattenNode {p : Node → Bool} (byTag : ∀ n n' : Node, n'.tag? = n.tag? → p n' = p n)
    {n n' : Node} (wf : n.isWellFormed = true) (h : flattenNode false n = .ok n') (free : n.Lacks p) :
    n'.Lacks p :=
  (inherited_lacks byTag).of_flattenNode wf h free

section Success

theorem exists_flattenAll {ns : List Node} (each : ∀ n ∈ ns, ∃ n', flattenNode false n = .ok n') :
    ∃ out, flattenAll ns = .ok out := by
  induction ns with
  | nil => exact ⟨[], by simp [flattenAll]⟩
  | cons n ns ih =>
    rw [List.forall_mem_cons] at each
    obtain ⟨n', first⟩ := each.1
    obtain ⟨others, rest⟩ := ih each.2
    exact ⟨n' :: others, by simp [flattenAll, first, rest, Outcome.bind_eq_ok]⟩

theorem exists_flattenOption {o : Option Node} (each : ∀ c ∈ o, ∃ c', flattenNode false c = .ok c') :
    ∃ o', flattenOption o = .ok o' := by
  cases o with
  | none => exact ⟨none, by simp [flattenOption]⟩
  | some n =>
    obtain ⟨n', run⟩ := each n rfl
    exact ⟨some n', by simp [flattenOption, run]⟩

theorem exists_fileTree {file : Option Node} (isFile : IsFile file)
    (each : ∀ c ∈ ast? file, ∃ c', flattenNode false c = .ok c') :
    ∃ found, fileTree file = .ok found := by
  have blocks : ∀ ast ∈ ast? file, ast.isBlock = true :=
    fun ast hast => (isWellFormed_of_mem_file isFile hast).1
  obtain ⟨n, rfl, isFile, -⟩ := isFile
  cases n with
  | fileReference pos path fullPath ast =>
    cases ast with
    | none => exact ⟨none, by rw [fileTree]⟩
    | some ast =>
      obtain ⟨flat, run⟩ := each ast rfl
      refine ⟨some flat, ?_⟩
      rw [fileTree, flattenNode_true_of_isBlock (blocks ast rfl), run]
      rfl
  | _ => cases isFile

theorem exists_flattenNode {n : Node} (wf : n.isWellFormed = true) :
    ∃ n', flattenNode false n = .ok n' := by
  induction n using childInduction with
  | step n ih =>
    have below : ∀ c ∈ n.children, ∃ c', flattenNode false c = .ok c' :=
      fun c hc => ih c hc (isWellFormed_of_mem_children wf hc)
    cases n with
    | leaf => exact ⟨_, by rw [flattenNode]⟩
    | seq pos head nodes =>
      have run : ∃ nodes', flattenAll nodes = .ok nodes' := exists_flattenAll below
      obtain ⟨nodes', run⟩ := run
      exact ⟨_, by rw [flattenNode, run]; rfl⟩
    | owner pos head block =>
      obtain ⟨block', run⟩ := exists_flattenOption fun c hc => below c (Option.mem_toList.2 hc)
      exact ⟨_, by rw [flattenNode, run]; rfl⟩
    | fork pos head main alternate =>
      simp only [children, List.mem_append, Option.mem_toList] at below
      obtain ⟨main', first⟩ := exists_flattenOption fun c hc => below c (.inl hc)
      obtain ⟨alternate', second⟩ := exists_flattenOption fun c hc => below c (.inr hc)
      exact ⟨_, by rw [flattenNode, first, second]; rfl⟩
    | inclusion pos file block =>
      obtain ⟨found, run⟩ := exists_fileTree (isWellFormed_inclusion.1 wf).2.1
        fun c hc => below c (Option.mem_toList.2 hc)
      exact ⟨_, by rw [flattenNode, if_neg Bool.false_ne_true, run]; rfl⟩
    | extension pos file =>
      obtain ⟨found, run⟩ := exists_fileTree (isWellFormed_extension.1 wf).2
        fun c hc => below c (Option.mem_toList.2 hc)
      exact ⟨_, by rw [flattenNode, if_neg Bool.false_ne_true, run]; rfl⟩
    | rawInclusion => exact ⟨_, by rw [flattenNode]⟩
    | fileReference => exact ⟨_, by rw [flattenNode]⟩

end Success

theorem flatten_eq_self {n : Node} (wf : n.isWellFormed = true) (unresolved : n.Lacks isResolved)
    (unnested : n.Lacks isNested) : n.flatten = .ok n := by
  obtain ⟨flat, run⟩ := exists_flattenNode wf
  have same : flat = n := by
    refine flatten_induction (N := fun n n' => n.Lacks isResolved → n.Lacks isNested → n' = n) ?_ ?_ wf
      run unresolved unnested
    · intro n ast n' isResolved _ _ unresolved
      rw [(lacks_iff.1 unresolved).1] at isResolved
      cases isResolved
    · intro n n' _ _ built unresolved unnested
      refine built.eq_self ?_ fun c hc c' related =>
        related (unresolved.of_mem_children hc) (unnested.of_mem_children hc)
      rintro isBlock c hc _ ⟨c', related, rfl⟩
      rw [related (unresolved.of_mem_children hc) (unnested.of_mem_children hc)]
      rcases spliced_cases c with ⟨plain, -⟩ | ⟨-, eq⟩
      · have flat := (lacks_iff.1 unnested).1
        rw [isNested, isBlock, Bool.true_and, List.any_eq_false] at flat
        exact absurd plain (flat c hc)
      · exact eq
  rw [flatten, run, same]

section Values

open Outcome

def flattening (n : Node) : Option (List Node) := (flattenNode false n).toOption.map spliced

theorem toOption_flattenAll (ns : List Node) :
    (flattenAll ns).toOption.map splice = gather flattening ns := by
  induction ns with
  | nil => simp [flattenAll, splice]
  | cons n ns ih =>
    simp only [flattenAll, gather_cons, flattening, toOption_bind, toOption_pure, ← ih, Option.bind_map,
      Option.map_bind]
    refine Option.bind_congr fun n' _ => ?_
    cases (flattenAll ns).toOption <;> simp [splice_eq_flatMap]

theorem toOption_flatten_seq {pos : Position} {head : Sequence} (nodes : List Node) :
    (Node.seq pos head nodes).flatten.toOption = (gather flattening nodes).map (.seq pos head) := by
  rw [← toOption_flattenAll, flatten, flattenNode]
  cases flattenAll nodes <;> rfl

end Values

end PugComponents.Node

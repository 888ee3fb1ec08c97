import PugComponents.Expansion
import PugComponents.Proofs.Outcome
import PugComponents.Proofs.Tree.Calls

/-! What the expansion of a tree does for a given way to expand single calls. Every node is rebuilt, and
a call in a block gives way to what its expansion returns; by then nothing below the call has calls
any more. A successful expansion has expanded every call of the tree, and one that fails passes on the
failure of a call or has found a value of the wrong shape. -/

namespace PugComponents.Node

variable {call : Node → Recorded (List Node)}

/-- The list that takes the place of a node in a block: what the expanded call returns, or the expanded
node itself. -/
inductive Expanded (call : Node → Recorded (List Node)) : Node → List Node → Prop where
  | called {n n' : Node} {part : List Node} (isCall : n.isCall = true)
    (run : (expandNode call n).result = .ok n') (returned : (call n').result = .ok part) :
    Expanded call n part
  | kept {n n' : Node} (notCall : n.isCall = false) (run : (expandNode call n).result = .ok n') :
    Expanded call n [n']

theorem tag?_of_expandNode {n n' : Node} (h : (expandNode call n).result = .ok n') :
    n'.tag? = n.tag? := by
  cases n <;>
    simp only [expandNode, Run.result_pure, Run.result_bind_eq_ok, Except.ok.injEq] at h
  case owner pos head block =>
    obtain ⟨_, _, rfl⟩ := h
    cases head <;> rfl
  case seq =>
    obtain ⟨_, _, _, _, rfl⟩ := h
    rfl
  case fork =>
    obtain ⟨_, _, _, _, rfl⟩ := h
    rfl
  case inclusion =>
    obtain ⟨_, _, rfl⟩ := h
    rfl
  case extension =>
    obtain ⟨_, _, rfl⟩ := h
    rfl
  all_goals
    subst h
    rfl

theorem expandAll_eq_ok {ns visited : List Node} (h : (expandAll call ns).result = .ok visited) :
    List.Forall₂ (fun c c' => (expandNode call c).result = .ok c') ns visited := by
  induction ns generalizing visited with
  | nil =>
    simp only [expandAll, Run.result_pure, Except.ok.injEq] at h
    exact h ▸ .nil
  | cons n ns ih =>
    simp only [expandAll, Run.result_bind_eq_ok, Run.result_pure, Except.ok.injEq] at h
    obtain ⟨n', run, others, rest, rfl⟩ := h
    exact .cons run (ih rest)

theorem replaceCalls_eq_ok {ns visited out : List Node}
    (first : List.Forall₂ (fun c c' => (expandNode call c).result = .ok c') ns visited)
    (second : (replaceCalls call visited).result = .ok out) :
    ∃ parts, List.Forall₂ (Expanded call) ns parts ∧ out = parts.flatten := by
  induction first generalizing out with
  | nil =>
    simp only [replaceCalls, Run.result_pure, Except.ok.injEq] at second
    exact ⟨[], .nil, second.symm⟩
  | @cons n n' ns visited run _ ih =>
    rw [replaceCalls, Run.result_bind_eq_ok] at second
    obtain ⟨isCall, check, second⟩ := second
    have same : n.isCall = isCall := by
      rw [← isCall_eq_of_tag?_eq (tag?_of_expandNode run)]
      exact isCall_eq_of_callCheck check
    cases isCall with
    | true =>
      simp only [if_true, Run.result_bind_eq_ok, Run.result_pure, Except.ok.injEq] at second
      obtain ⟨part, returned, out, second, rfl⟩ := second
      obtain ⟨parts, related, rfl⟩ := ih second
      exact ⟨part :: parts, .cons (.called same run returned) related, rfl⟩
    | false =>
      simp only [Bool.false_eq_true, if_false, Run.result_bind_eq_ok, Run.result_pure,
        Except.ok.injEq] at second
      obtain ⟨out, second, rfl⟩ := second
      obtain ⟨parts, related, rfl⟩ := ih second
      exact ⟨[n'] :: parts, .cons (.kept same run) related, rfl⟩

theorem expandBlock_eq_ok {ns out : List Node} (h : (expandBlock call ns).result = .ok out) :
    ∃ parts, List.Forall₂ (Expanded call) ns parts ∧ out = parts.flatten := by
  rw [expandBlock, Run.result_bind_eq_ok] at h
  obtain ⟨visited, first, second⟩ := h
  exact replaceCalls_eq_ok (expandAll_eq_ok first) second

theorem expandOption_eq_ok {o o' : Option Node} (h : (expandOption call o).result = .ok o') :
    Option.Rel (fun c c' => (expandNode call c).result = .ok c') o o' := by
  cases o with
  | none =>
    simp only [expandOption, Run.result_pure, Except.ok.injEq] at h
    exact h ▸ .none
  | some n =>
    simp only [expandOption, Run.result_bind_eq_ok, Run.result_pure, Except.ok.injEq] at h
    obtain ⟨n', run, rfl⟩ := h
    exact .some run

theorem expandFile_eq_ok {file file' : Option Node} (h : (expandFile call file).result = .ok file') :
    RebuiltFile (fun c c' => (expandNode call c).result = .ok c') file file' := by
  match file, h with
  | none, h =>
    simp only [expandFile, Run.result_pure, Except.ok.injEq] at h
    exact h ▸ .none
  | some (.fileReference pos path fullPath ast), h =>
    simp only [expandFile, Run.result_bind_eq_ok, Run.result_pure, Except.ok.injEq] at h
    obtain ⟨ast', run, rfl⟩ := h
    exact .some pos path fullPath (expandOption_eq_ok run)
  | some (.leaf ..), h => simp [expandFile] at h
  | some (.seq ..), h => simp [expandFile] at h
  | some (.owner ..), h => simp [expandFile] at h
  | some (.fork ..), h => simp [expandFile] at h
  | some (.inclusion ..), h => simp [expandFile] at h
  | some (.extension ..), h => simp [expandFile] at h
  | some (.rawInclusion ..), h => simp [expandFile] at h

theorem expandNode_eq_ok {n n' : Node} (h : (expandNode call n).result = .ok n') :
    Rebuilt (Expanded call) (fun c c' => (expandNode call c).result = .ok c') n n' := by
  cases n with
  | leaf pos head =>
    simp only [expandNode, Run.result_pure, Except.ok.injEq] at h
    exact h ▸ .leaf pos head
  | seq pos head nodes =>
    simp only [expandNode, Run.result_bind_eq_ok, Run.result_pure, Except.ok.injEq] at h
    obtain ⟨visited, first, nodes', second, rfl⟩ := h
    obtain ⟨parts, related, rfl⟩ := replaceCalls_eq_ok (expandAll_eq_ok first) second
    exact .seq pos head related
  | owner pos head block =>
    simp only [expandNode, Run.result_bind_eq_ok, Run.result_pure, Except.ok.injEq] at h
    obtain ⟨block', run, rfl⟩ := h
    exact .owner pos head (expandOption_eq_ok run)
  | fork pos head main alternate =>
    simp only [expandNode, Run.result_bind_eq_ok, Run.result_pure, Except.ok.injEq] at h
    obtain ⟨main', first, alternate', second, rfl⟩ := h
    exact .fork pos head (expandOption_eq_ok first) (expandOption_eq_ok second)
  | inclusion pos file block =>
    simp only [expandNode, Run.result_bind_eq_ok, Run.result_pure, Except.ok.injEq] at h
    obtain ⟨file', run, rfl⟩ := h
    exact .inclusion pos block (expandFile_eq_ok run)
  | extension pos file =>
    simp only [expandNode, Run.result_bind_eq_ok, Run.result_pure, Except.ok.injEq] at h
    obtain ⟨file', run, rfl⟩ := h
    exact .extension pos (expandFile_eq_ok run)
  | rawInclusion pos file filters =>
    simp only [expandNode, Run.result_pure, Except.ok.injEq] at h
    exact h ▸ .rawInclusion pos file filters
  | fileReference pos path fullPath ast =>
    simp only [expandNode, Run.result_pure, Except.ok.injEq] at h
    exact h ▸ .fileReference pos path fullPath ast

/-- What holds of nodes rebuilt from pieces of which it holds, and of what calls return, holds of
everything that expansion does. -/
theorem expand_induction {N : Node → Node → Prop} {P : Node → List Node → Prop}
    (rebuilt : ∀ n n', Rebuilt P (fun c c' => (expandNode call c).result = .ok c' ∧ N c c') n n' →
      N n n')
    (called : ∀ n n' part, n.isCall = true → (expandNode call n).result = .ok n' → N n n' →
      (call n').result = .ok part → P n part)
    (kept : ∀ n n', n.isCall = false → (expandNode call n).result = .ok n' → N n n' → P n [n'])
    (n : Node) :
    (∀ n', (expandNode call n).result = .ok n' → N n n') ∧ ∀ part, Expanded call n part → P n part := by
  induction n using childInduction with
  | step n ih =>
    -- What stands below a node is expanded before the node itself is replaced.
    have expanded : ∀ n', (expandNode call n).result = .ok n' → N n n' := by
      intro n' run
      refine rebuilt n n' ((expandNode_eq_ok run).imp (fun c hc => (ih c hc).2) ?_)
      intro c hc c' run
      exact ⟨run, (ih c hc).1 c' run⟩
    refine ⟨expanded, ?_⟩
    intro part h
    cases h with
    | @called n' part isCall run returned => exact called n n' part isCall run (expanded n' run) returned
    | @kept n' notCall run => exact kept n n' notCall run (expanded n' run)

def CallsInherit (Q : Node → Prop) (call : Node → Recorded (List Node)) : Prop :=
  ∀ m part, m.isCall = true → Q m → (call m).result = .ok part → ∀ k ∈ part, Q k

theorem Inherited.both_of_expand {Q : Node → Prop} (inherited : Inherited Q) (calls : CallsInherit Q call)
    (n : Node) :
    (∀ n', (expandNode call n).result = .ok n' → Q n → Q n') ∧
      ∀ part, Expanded call n part → Q n → ∀ k ∈ part, Q k := by
  revert n
  apply expand_induction
  case rebuilt =>
    intro n n' built
    exact inherited.of_rebuilt built (fun _ _ related => related) fun _ _ related => related.2
  case called =>
    intro n n' part isCall run ih returned holds
    have isCall' : n'.isCall = true := isCall_eq_of_tag?_eq (tag?_of_expandNode run) ▸ isCall
    exact calls n' part isCall' (ih holds) returned
  case kept =>
    intro n n' _ run ih holds k hk
    rw [List.mem_singleton.1 hk]
    exact ih holds

theorem Inherited.of_expandNode {Q : Node → Prop} (inherited : Inherited Q)
    (calls : CallsInherit Q call) {n n' : Node} (h : (expandNode call n).result = .ok n') (holds : Q n) :
    Q n' :=
  (inherited.both_of_expand calls n).1 n' h holds

theorem Inherited.of_expandBlock {Q : Node → Prop} (inherited : Inherited Q)
    (calls : CallsInherit Q call) {ns out : List Node} (h : (expandBlock call ns).result = .ok out)
    (holds : ∀ n ∈ ns, Q n) : ∀ k ∈ out, Q k := by
  obtain ⟨parts, related, rfl⟩ := expandBlock_eq_ok h
  intro k hk
  obtain ⟨part, hpart, hk⟩ := List.mem_flatten.1 hk
  obtain ⟨n, hn, expanded⟩ := exists_of_forall₂_right related hpart
  exact (inherited.both_of_expand calls n).2 part expanded (holds n hn) k hk

structure IsReady (m : Node) : Prop where
  isCall : m.isCall = true
  isWellFormed : m.isWellFormed = true
  below : ∀ c ∈ m.children, c.CallFree

/-- What calls return has the property, if all that stands below them was expanded before. -/
def CallsReturn (Q : Node → Prop) (call : Node → Recorded (List Node)) : Prop :=
  ∀ m part, m.IsReady → (call m).result = .ok part → ∀ k ∈ part, Q k

def Settled (n : Node) : Prop := n.isWellFormed = true ∧ n.CallFree

theorem settled_both (returns : CallsReturn Settled call) (n : Node) :
    (∀ n', (expandNode call n).result = .ok n' → n.isWellFormed = true →
      n'.isWellFormed = true ∧ ∀ c ∈ n'.children, c.CallFree) ∧
    ∀ part, Expanded call n part → n.isWellFormed = true → ∀ k ∈ part, k.Settled := by
  revert n
  apply expand_induction
  case rebuilt =>
    intro n n' built wf
    have below : ∀ k ∈ n'.children, k.Settled := by
      intro k hk
      obtain ⟨c, hc, part, piece, hk⟩ := built.exists_piece_of_mem hk
      have wfc := isWellFormed_of_mem_children wf hc
      cases piece with
      | listed _ related => exact related wfc k hk
      | single notBlock related =>
        rw [List.mem_singleton.1 hk]
        have untagged := tag?_of_mem_children wf notBlock hc
        obtain ⟨wf', free⟩ := related.2 wfc
        refine ⟨wf', lacks_iff.2 ⟨?_, free⟩⟩
        exact isCall_eq_false_of_tag? ((tag?_of_expandNode related.1).trans untagged)
    refine ⟨?_, fun k hk => (below k hk).2⟩
    exact built.isWellFormed wf (fun _ c _ c' related => (expandNode_eq_ok related.1).bare_eq)
      fun k hk => (below k hk).1
  case called =>
    intro n n' part isCall run ih returned wf
    obtain ⟨wf', free⟩ := ih wf
    have isCall' : n'.isCall = true := isCall_eq_of_tag?_eq (tag?_of_expandNode run) ▸ isCall
    exact returns n' part ⟨isCall', wf', free⟩ returned
  case kept =>
    intro n n' notCall run ih wf k hk
    rw [List.mem_singleton.1 hk]
    obtain ⟨wf', free⟩ := ih wf
    refine ⟨wf', lacks_iff.2 ⟨?_, free⟩⟩
    exact isCall_eq_of_tag?_eq (tag?_of_expandNode run) ▸ notCall

theorem settled_of_expandNode (returns : CallsReturn Settled call) {n n' : Node}
    (wf : n.isWellFormed = true) (h : (expandNode call n).result = .ok n') :
    n'.isWellFormed = true ∧ ∀ c ∈ n'.children, c.CallFree :=
  (settled_both returns n).1 n' h wf

theorem settled_of_expanded (returns : CallsReturn Settled call) {n : Node} {part : List Node}
    (wf : n.isWellFormed = true) (h : Expanded call n part) : ∀ k ∈ part, k.Settled :=
  (settled_both returns n).2 part h wf

theorem isReady_of_expandNode (returns : CallsReturn Settled call) {m m' : Node}
    (wf : m.isWellFormed = true) (isCall : m.isCall = true)
    (h : (expandNode call m).result = .ok m') : m'.IsReady := by
  obtain ⟨wf', free⟩ := settled_of_expandNode returns wf h
  exact ⟨isCall_eq_of_tag?_eq (tag?_of_expandNode h) ▸ isCall, wf', free⟩

/-- A call of the component was expanded, after all that stands below the call. -/
def Served (call : Node → Recorded (List Node)) (name : String) : Prop :=
  ∃ m part, m.IsReady ∧ m.calledName? = some name ∧ (call m).result = .ok part

theorem served_both (returns : CallsReturn Settled call) (n : Node) :
    (∀ n', (expandNode call n).result = .ok n' → n.isWellFormed = true →
      ∀ c ∈ n.children, ∀ name, c.Mentions name → Served call name) ∧
    ∀ part, Expanded call n part → n.isWellFormed = true →
      ∀ name, n.Mentions name → Served call name := by
  revert n
  apply expand_induction
  case rebuilt =>
    intro n n' built wf c hc name mentions
    have wfc := isWellFormed_of_mem_children wf hc
    obtain ⟨part, piece, -⟩ := built.exists_piece_subset hc
    cases piece with
    | listed _ related => exact related wfc name mentions
    | single notBlock related =>
      -- Calls stand in blocks only, so the child itself is none.
      rcases mentions_iff.1 mentions with called | ⟨d, hd, mentions⟩
      · have isCall := isCall_of_calledName? called
        rw [isCall_eq_false_of_tag? (tag?_of_mem_children wf notBlock hc)] at isCall
        cases isCall
      · exact related.2 wfc d hd name mentions
  case called =>
    intro n n' part isCall run ih returned wf name mentions
    rcases mentions_iff.1 mentions with called | ⟨c, hc, mentions⟩
    · have same : n'.calledName? = n.calledName? := calledName?_eq_of_tag?_eq (tag?_of_expandNode run)
      exact ⟨n', part, isReady_of_expandNode returns wf isCall run, same.trans called, returned⟩
    · exact ih wf c hc name mentions
  case kept =>
    intro n n' notCall run ih wf name mentions
    rcases mentions_iff.1 mentions with called | ⟨c, hc, mentions⟩
    · rw [isCall_of_calledName? called] at notCall
      cases notCall
    · exact ih wf c hc name mentions

theorem served_of_expandNode (returns : CallsReturn Settled call) {n n' : Node}
    (wf : n.isWellFormed = true) (notCall : n.isCall = false)
    (h : (expandNode call n).result = .ok n') {name : String} (mentions : n.Mentions name) :
    Served call name := by
  rcases mentions_iff.1 mentions with called | ⟨c, hc, mentions⟩
  · rw [isCall_of_calledName? called] at notCall
    cases notCall
  · exact (served_both returns n).1 n' h wf c hc name mentions

theorem served_of_expandBlock (returns : CallsReturn Settled call) {ns out : List Node}
    (wf : ∀ n ∈ ns, n.isWellFormed = true) (h : (expandBlock call ns).result = .ok out)
    {name : String} {n : Node} (hn : n ∈ ns) (mentions : n.Mentions name) : Served call name := by
  obtain ⟨parts, related, rfl⟩ := expandBlock_eq_ok h
  obtain ⟨part, hpart, expanded⟩ := exists_of_forall₂_left related hn
  exact (served_both returns n).2 part expanded (wf n hn) name mentions

section Failures

variable {e : Failure}

def FailsAt (call : Node → Recorded (List Node)) (e : Failure) (m : Node) : Prop :=
  m.isCall = true ∧ ∃ m', (expandNode call m).result = .ok m' ∧ (call m').result = .error e

/-- A failure among some nodes: a value of the wrong shape, a failed expansion, or a failed call. -/
def FailsAmong (call : Node → Recorded (List Node)) (e : Failure) (ns : List Node) : Prop :=
  (∃ f, e = .fault f) ∨ ∃ c ∈ ns, (expandNode call c).result = .error e ∨ FailsAt call e c

theorem FailsAmong.mono {ns ms : List Node} (h : FailsAmong call e ns) (sub : ns ⊆ ms) :
    FailsAmong call e ms := by
  rcases h with h | ⟨c, hc, h⟩
  · exact .inl h
  · exact .inr ⟨c, sub hc, h⟩

theorem expandAll_eq_error {ns : List Node} (h : (expandAll call ns).result = .error e) :
    ∃ c ∈ ns, (expandNode call c).result = .error e := by
  induction ns with
  | nil => simp [expandAll] at h
  | cons n ns ih =>
    rw [expandAll, Run.result_bind_eq_error] at h
    simp only [Run.result_bind_pure_eq_error] at h
    rcases h with h | ⟨_, _, h⟩
    · exact ⟨n, by simp, h⟩
    · obtain ⟨c, hc, h⟩ := ih h
      exact ⟨c, List.mem_cons_of_mem _ hc, h⟩

theorem replaceCalls_eq_error {ns : List Node} (h : (replaceCalls call ns).result = .error e) :
    (∃ f, e = .fault f) ∨ ∃ c ∈ ns, c.isCall = true ∧ (call c).result = .error e := by
  induction ns with
  | nil => simp [replaceCalls] at h
  | cons n ns ih =>
    have later : (replaceCalls call ns).result = .error e →
        (∃ f, e = .fault f) ∨ ∃ c ∈ n :: ns, c.isCall = true ∧ (call c).result = .error e := by
      intro h
      rcases ih h with h | ⟨c, hc, h⟩
      · exact .inl h
      · exact .inr ⟨c, List.mem_cons_of_mem _ hc, h⟩
    rw [replaceCalls, Run.result_bind_eq_error] at h
    rcases h with h | ⟨isCall, check, h⟩
    · left
      rw [Run.result_lift, callCheck] at h
      split at h
      · rename_i f _
        exact ⟨f, by simpa using h.symm⟩
      · cases h
    · cases isCall with
      | true =>
        rw [if_pos rfl, Run.result_bind_eq_error] at h
        simp only [Run.result_bind_pure_eq_error] at h
        rcases h with h | ⟨_, _, h⟩
        · exact .inr ⟨n, by simp, isCall_eq_of_callCheck check, h⟩
        · exact later h
      | false =>
        rw [if_neg Bool.false_ne_true, Run.result_bind_pure_eq_error] at h
        exact later h

theorem failsAmong_of_expandBlock {ns : List Node} (h : (expandBlock call ns).result = .error e) :
    FailsAmong call e ns := by
  rw [expandBlock, Run.result_bind_eq_error] at h
  rcases h with h | ⟨visited, first, h⟩
  · obtain ⟨c, hc, h⟩ := expandAll_eq_error h
    exact .inr ⟨c, hc, .inl h⟩
  · rcases replaceCalls_eq_error h with h | ⟨c', hc', isCall, h⟩
    · exact .inl h
    · obtain ⟨c, hc, run⟩ := exists_of_forall₂_right (expandAll_eq_ok first) hc'
      have isCall : c.isCall = true := isCall_eq_of_tag?_eq (tag?_of_expandNode run) ▸ isCall
      exact .inr ⟨c, hc, .inr ⟨isCall, c', run, h⟩⟩

theorem expandOption_eq_error {o : Option Node} (h : (expandOption call o).result = .error e) :
    FailsAmong call e o.toList := by
  cases o with
  | none => simp [expandOption] at h
  | some n =>
    rw [expandOption, Run.result_bind_pure_eq_error] at h
    exact .inr ⟨n, by simp, .inl h⟩

theorem expandFile_eq_error {file : Option Node} (h : (expandFile call file).result = .error e) :
    FailsAmong call e (ast? file).toList := by
  unfold expandFile at h
  split at h
  · simp at h
  · rw [Run.result_bind_pure_eq_error] at h
    exact expandOption_eq_error h
  · simp only [Run.result_fail, Except.error.injEq] at h
    exact .inl ⟨_, h.symm⟩

theorem expandNode_eq_error {n : Node} (h : (expandNode call n).result = .error e) :
    FailsAmong call e n.children := by
  cases n with
  | seq pos head nodes =>
    rw [expandNode, Run.result_bind_eq_error] at h
    simp only [Run.result_bind_pure_eq_error] at h
    exact failsAmong_of_expandBlock (by rw [expandBlock, Run.result_bind_eq_error]; exact h)
  | owner pos head block =>
    rw [expandNode, Run.result_bind_pure_eq_error] at h
    exact expandOption_eq_error h
  | fork pos head main alternate =>
    rw [expandNode, Run.result_bind_eq_error] at h
    simp only [Run.result_bind_pure_eq_error] at h
    rcases h with h | ⟨_, _, h⟩
    · exact (expandOption_eq_error h).mono (List.subset_append_left _ _)
    · exact (expandOption_eq_error h).mono (List.subset_append_right _ _)
  | inclusion pos file block =>
    rw [expandNode, Run.result_bind_pure_eq_error] at h
    exact expandFile_eq_error h
  | extension pos file =>
    rw [expandNode, Run.result_bind_pure_eq_error] at h
    exact expandFile_eq_error h
  | leaf => simp [expandNode] at h
  | rawInclusion => simp [expandNode] at h
  | fileReference => simp [expandNode] at h

theorem exists_failsAt_of_failsAmong {ns : List Node} (h : FailsAmong call e ns) :
    (∃ f, e = .fault f) ∨ ∃ n ∈ ns, ∃ m ∈ n.walk, FailsAt call e m := by
  have below : ∀ n, (expandNode call n).result = .error e →
      (∃ f, e = .fault f) ∨ ∃ m ∈ n.walk, FailsAt call e m := by
    intro n
    induction n using childInduction with
    | step n ih =>
      intro h
      rcases expandNode_eq_error h with h | ⟨c, hc, h | h⟩
      · exact .inl h
      · rcases ih c hc h with h | ⟨m, hm, h⟩
        · exact .inl h
        · exact .inr ⟨m, mem_walk_of_mem_children hc hm, h⟩
      · exact .inr ⟨c, mem_walk_of_mem_children hc (self_mem_walk c), h⟩
  rcases h with h | ⟨n, hn, h | h⟩
  · exact .inl h
  · rcases below n h with h | ⟨m, hm, h⟩
    · exact .inl h
    · exact .inr ⟨n, hn, m, hm, h⟩
  · exact .inr ⟨n, hn, n, self_mem_walk n, h⟩

end Failures

end PugComponents.Node

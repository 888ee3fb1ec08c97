import PugComponents.Proofs.Expansion.Tree

/-! The calls that are made while a tree is expanded. `Invokes` follows the expansion step by step: a call
is made only after all that comes before it has succeeded. Such a call stands in the tree and has been
expanded below. No other call matters, and a well-formed tree cannot be expanded only if one that is made
fails. -/

namespace PugComponents.Node

variable {call : Node → Recorded (List Node)}

/-- The expansion of the first node comes to expand the second one as a call. -/
inductive Invokes (call : Node → Recorded (List Node)) : Node → Node → Prop where
  | listed {pos : Position} {head : Sequence} {before after visited : List Node} {n m : Node}
    (earlier : (expandAll call before).result = .ok visited) (inner : Invokes call n m) :
    Invokes call (.seq pos head (before ++ n :: after)) m
  | replaced {pos : Position} {head : Sequence} {nodes before after out : List Node} {m : Node}
    (visited : (expandAll call nodes).result = .ok (before ++ m :: after))
    (earlier : (replaceCalls call before).result = .ok out) (isCall : m.isCall = true) :
    Invokes call (.seq pos head nodes) m
  | owned {pos : Position} {head : Owner} {n m : Node} (inner : Invokes call n m) :
    Invokes call (.owner pos head (some n)) m
  | main {pos : Position} {head : Fork} {alternate : Option Node} {n m : Node}
    (inner : Invokes call n m) : Invokes call (.fork pos head (some n) alternate) m
  | alternate {pos : Position} {head : Fork} {main main' : Option Node} {n m : Node}
    (earlier : (expandOption call main).result = .ok main') (inner : Invokes call n m) :
    Invokes call (.fork pos head main (some n)) m
  | included {pos pos' : Position} {path fullPath : Json} {block : Option Node} {n m : Node}
    (inner : Invokes call n m) :
    Invokes call (.inclusion pos (some (.fileReference pos' path fullPath (some n))) block) m
  | extended {pos pos' : Position} {path fullPath : Json} {n m : Node} (inner : Invokes call n m) :
    Invokes call (.extension pos (some (.fileReference pos' path fullPath (some n)))) m

/-- A call that is made stands in the tree, and what is below it has been expanded. -/
theorem exists_origin_of_invokes {n m : Node} (h : Invokes call n m) :
    ∃ k ∈ n.walk, k.isCall = true ∧ (expandNode call k).result = .ok m := by
  have deeper : ∀ {n c m : Node}, c ∈ n.children →
      (∃ k ∈ c.walk, k.isCall = true ∧ (expandNode call k).result = .ok m) →
      ∃ k ∈ n.walk, k.isCall = true ∧ (expandNode call k).result = .ok m := by
    rintro n c m hc ⟨k, hk, found⟩
    exact ⟨k, mem_walk_of_mem_children hc hk, found⟩
  induction h with
  | listed _ _ ih => exact deeper (by simp [children]) ih
  | @replaced pos head nodes before after out m visited earlier isCall =>
    obtain ⟨k, hk, run⟩ := exists_of_forall₂_right (expandAll_eq_ok visited) (b := m) (by simp)
    have same : k.isCall = true := isCall_eq_of_tag?_eq (tag?_of_expandNode run) ▸ isCall
    exact ⟨k, mem_walk_of_mem_children hk (self_mem_walk k), same, run⟩
  | owned _ ih => exact deeper (by simp [children]) ih
  | main _ ih => exact deeper (by simp [children]) ih
  | alternate _ _ ih => exact deeper (by simp [children]) ih
  | included _ ih => exact deeper (by simp [children, ast?]) ih
  | extended _ ih => exact deeper (by simp [children, ast?]) ih

theorem isCall_of_invokes {n m : Node} (h : Invokes call n m) : m.isCall = true := by
  obtain ⟨k, -, isCall, run⟩ := exists_origin_of_invokes h
  rw [isCall_eq_of_tag?_eq (tag?_of_expandNode run), isCall]

theorem expandNode_seq (call : Node → Recorded (List Node)) (pos : Position) (head : Sequence)
    (nodes : List Node) :
    expandNode call (.seq pos head nodes) = do
      let nodes ← expandBlock call nodes
      return .seq pos head nodes := by
  rw [expandNode, expandBlock, Run.bind_assoc]

section Agreement

variable {call' : Node → Recorded (List Node)}

theorem expandAll_congr {ns : List Node}
    (agree : ∀ before n after visited, ns = before ++ n :: after →
      (expandAll call before).result = .ok visited → expandNode call' n = expandNode call n) :
    expandAll call' ns = expandAll call ns := by
  induction ns with
  | nil => simp only [expandAll]
  | cons n ns ih =>
    rw [expandAll, expandAll, agree [] n ns [] rfl (by simp [expandAll])]
    refine Run.bind_congr_of_ok fun n' run => ?_
    rw [ih fun before m after visited split earlier => ?_]
    refine agree (n :: before) m after (n' :: visited) (by rw [split, List.cons_append]) ?_
    simp [expandAll, Run.result_bind_eq_ok, run, earlier]

theorem replaceCalls_congr {ns : List Node}
    (agree : ∀ before m after out, ns = before ++ m :: after →
      (replaceCalls call before).result = .ok out → m.isCall = true → call' m = call m) :
    replaceCalls call' ns = replaceCalls call ns := by
  induction ns with
  | nil => simp only [replaceCalls]
  | cons n ns ih =>
    rw [replaceCalls, replaceCalls]
    refine Run.bind_congr_of_ok fun isCall told => ?_
    obtain rfl := isCall_eq_of_callCheck told
    cases isCall : n.isCall with
    | true =>
      rw [if_pos rfl, if_pos rfl, agree [] n ns [] rfl rfl isCall]
      refine Run.bind_congr_of_ok fun part returned => ?_
      rw [ih fun before m after out split earlier => ?_]
      refine agree (n :: before) m after (part ++ out) (by rw [split, List.cons_append]) ?_
      simp only [Run.result_lift] at told
      simp [replaceCalls, Run.result_bind_eq_ok, told, isCall, returned, earlier]
    | false =>
      rw [if_neg Bool.false_ne_true, if_neg Bool.false_ne_true]
      rw [ih fun before m after out split earlier => ?_]
      refine agree (n :: before) m after (n :: out) (by rw [split, List.cons_append]) ?_
      simp only [Run.result_lift] at told
      simp [replaceCalls, Run.result_bind_eq_ok, told, isCall, earlier]

theorem expandBlock_congr {nodes : List Node}
    (inner : ∀ before n after visited, nodes = before ++ n :: after →
      (expandAll call before).result = .ok visited → expandNode call' n = expandNode call n)
    (outer : ∀ before m after out, (expandAll call nodes).result = .ok (before ++ m :: after) →
      (replaceCalls call before).result = .ok out → m.isCall = true → call' m = call m) :
    expandBlock call' nodes = expandBlock call nodes := by
  rw [expandBlock, expandBlock, expandAll_congr inner]
  refine Run.bind_congr_of_ok fun visited run => replaceCalls_congr fun before m after out split => ?_
  subst split
  exact outer before m after out run

theorem expandOption_congr {o : Option Node}
    (agree : ∀ n, o = some n → expandNode call' n = expandNode call n) :
    expandOption call' o = expandOption call o := by
  cases o with
  | none => simp only [expandOption]
  | some n => rw [expandOption, expandOption, agree n rfl]

theorem expandFile_congr {file : Option Node}
    (agree : ∀ pos path fullPath n, file = some (.fileReference pos path fullPath (some n)) →
      expandNode call' n = expandNode call n) : expandFile call' file = expandFile call file := by
  cases file with
  | none => simp only [expandFile]
  | some f =>
    cases f with
    | fileReference pos path fullPath ast =>
      have inner : expandOption call' ast = expandOption call ast :=
        expandOption_congr fun n found => agree pos path fullPath n (by rw [found])
      rw [expandFile, expandFile, inner]
    | _ => simp only [expandFile]

theorem expandNode_congr {n : Node} (agree : ∀ m, Invokes call n m → call' m = call m) :
    expandNode call' n = expandNode call n := by
  induction n using childInduction with
  | step n ih =>
    cases n with
    | leaf | rawInclusion | fileReference => simp only [expandNode]
    | seq pos head nodes =>
      rw [expandNode_seq, expandNode_seq, expandBlock_congr]
      · rintro before c after visited rfl earlier
        exact ih c (by simp [children]) fun m inner => agree m (.listed earlier inner)
      · intro before m after out visited earlier isCall
        exact agree m (.replaced visited earlier isCall)
    | owner pos head block =>
      rw [expandNode, expandNode, expandOption_congr]
      rintro c rfl
      exact ih c (by simp [children]) fun m inner => agree m (.owned inner)
    | fork pos head main alternate =>
      have first : expandOption call' main = expandOption call main := by
        refine expandOption_congr ?_
        rintro c rfl
        exact ih c (by simp [children]) fun m inner => agree m (.main inner)
      rw [expandNode, expandNode, first]
      refine Run.bind_congr_of_ok fun main' run => ?_
      rw [expandOption_congr]
      rintro c rfl
      exact ih c (by simp [children]) fun m inner => agree m (.alternate run inner)
    | inclusion pos file block =>
      rw [expandNode, expandNode, expandFile_congr]
      rintro pos' path fullPath c rfl
      exact ih c (by simp [children, ast?]) fun m inner => agree m (.included inner)
    | extension pos file =>
      rw [expandNode, expandNode, expandFile_congr]
      rintro pos' path fullPath c rfl
      exact ih c (by simp [children, ast?]) fun m inner => agree m (.extended inner)

theorem expandBlock_congr_of_invokes {nodes : List Node}
    (agree : ∀ m, Invokes call (block {} nodes) m → call' m = call m) :
    expandBlock call' nodes = expandBlock call nodes := by
  refine expandBlock_congr ?_ ?_
  · rintro before c after visited rfl earlier
    exact expandNode_congr fun m inner => agree m (.listed earlier inner)
  · intro before m after out visited earlier isCall
    exact agree m (.replaced visited earlier isCall)

end Agreement

section Failures

variable {e : Failure}

theorem exists_split_of_expandAll {ns : List Node} (h : (expandAll call ns).result = .error e) :
    ∃ before n after visited, ns = before ++ n :: after ∧
      (expandAll call before).result = .ok visited ∧ (expandNode call n).result = .error e := by
  induction ns with
  | nil => simp [expandAll] at h
  | cons n ns ih =>
    rw [expandAll, Run.result_bind_eq_error] at h
    simp only [Run.result_bind_pure_eq_error] at h
    rcases h with h | ⟨n', run, h⟩
    · exact ⟨[], n, ns, [], rfl, by simp [expandAll], h⟩
    · obtain ⟨before, m, after, visited, rfl, earlier, failed⟩ := ih h
      refine ⟨n :: before, m, after, n' :: visited, rfl, ?_, failed⟩
      simp [expandAll, Run.result_bind_eq_ok, run, earlier]

theorem exists_split_of_replaceCalls {ns : List Node} (told : ∀ n ∈ ns, n.callCheck = .ok n.isCall)
    (h : (replaceCalls call ns).result = .error e) :
    ∃ before m after out, ns = before ++ m :: after ∧ (replaceCalls call before).result = .ok out ∧
      m.isCall = true ∧ (call m).result = .error e := by
  induction ns with
  | nil => simp [replaceCalls] at h
  | cons n ns ih =>
    rw [List.forall_mem_cons] at told
    rw [replaceCalls, Run.result_bind_eq_error] at h
    simp only [Run.result_lift, told.1, Except.ok.injEq, reduceCtorEq, false_or,
      exists_eq_left'] at h
    cases isCall : n.isCall with
    | true =>
      rw [isCall, if_pos rfl, Run.result_bind_eq_error] at h
      simp only [Run.result_bind_pure_eq_error] at h
      rcases h with h | ⟨part, returned, h⟩
      · exact ⟨[], n, ns, [], rfl, rfl, isCall, h⟩
      · obtain ⟨before, m, after, out, rfl, earlier, failed⟩ := ih told.2 h
        refine ⟨n :: before, m, after, part ++ out, rfl, ?_, failed⟩
        simp [replaceCalls, Run.result_bind_eq_ok, told.1, isCall, returned, earlier]
    | false =>
      rw [isCall, if_neg Bool.false_ne_true, Run.result_bind_pure_eq_error] at h
      obtain ⟨before, m, after, out, rfl, earlier, failed⟩ := ih told.2 h
      refine ⟨n :: before, m, after, n :: out, rfl, ?_, failed⟩
      simp [replaceCalls, Run.result_bind_eq_ok, told.1, isCall, earlier]

theorem callCheck_of_expandNode {n n' : Node} (wf : n.isWellFormed = true)
    (run : (expandNode call n).result = .ok n') : n'.callCheck = .ok n'.isCall := by
  have same := tag?_of_expandNode run
  have told := callCheck_of_isWellFormed wf
  rw [isCall_eq_of_tag?_eq same, ← told]
  simp only [callCheck, labelFault?, isCall_eq_of_tag?_eq same, same]

theorem exists_of_expandOption {o : Option Node} (h : (expandOption call o).result = .error e) :
    ∃ n, o = some n ∧ (expandNode call n).result = .error e := by
  cases o with
  | none => simp [expandOption] at h
  | some n =>
    rw [expandOption, Run.result_bind_pure_eq_error] at h
    exact ⟨n, rfl, h⟩

theorem exists_of_expandFile {file : Option Node} (isFile : IsFile file)
    (h : (expandFile call file).result = .error e) :
    ∃ pos path fullPath n, file = some (.fileReference pos path fullPath (some n)) ∧
      (expandNode call n).result = .error e := by
  obtain ⟨f, rfl, isReference, -⟩ := isFile
  cases f with
  | fileReference pos path fullPath ast =>
    rw [expandFile, Run.result_bind_pure_eq_error] at h
    obtain ⟨n, rfl, failed⟩ := exists_of_expandOption h
    exact ⟨pos, path, fullPath, n, rfl, failed⟩
  | _ => cases isReference

theorem exists_invokes_of_expandNode {n : Node} (wf : n.isWellFormed = true)
    (h : (expandNode call n).result = .error e) :
    ∃ m, Invokes call n m ∧ (call m).result = .error e := by
  induction n using childInduction with
  | step n ih =>
    have below : ∀ c ∈ n.children, (expandNode call c).result = .error e →
        ∃ m, Invokes call c m ∧ (call m).result = .error e :=
      fun c hc failed => ih c hc (isWellFormed_of_mem_children wf hc) failed
    cases n with
    | leaf | rawInclusion | fileReference => simp [expandNode] at h
    | seq pos head nodes =>
      rw [expandNode, Run.result_bind_eq_error] at h
      simp only [Run.result_bind_pure_eq_error] at h
      rcases h with h | ⟨visited, first, h⟩
      · obtain ⟨before, c, after, _, rfl, earlier, failed⟩ := exists_split_of_expandAll h
        obtain ⟨m, invoked, failed⟩ := below c (by simp [children]) failed
        exact ⟨m, .listed earlier invoked, failed⟩
      -- Calls are replaced once the whole block is expanded, when each can still be told.
      · have told : ∀ c ∈ visited, c.callCheck = .ok c.isCall := by
          intro c hc
          obtain ⟨k, hk, run⟩ := exists_of_forall₂_right (expandAll_eq_ok first) hc
          exact callCheck_of_expandNode ((isWellFormed_seq.1 wf).2.2 k hk) run
        obtain ⟨before, m, after, out, rfl, earlier, isCall, failed⟩ :=
          exists_split_of_replaceCalls told h
        exact ⟨m, .replaced first earlier isCall, failed⟩
    | owner pos head block =>
      rw [expandNode, Run.result_bind_pure_eq_error] at h
      obtain ⟨c, rfl, failed⟩ := exists_of_expandOption h
      obtain ⟨m, invoked, failed⟩ := below c (by simp [children]) failed
      exact ⟨m, .owned invoked, failed⟩
    | fork pos head main alternate =>
      rw [expandNode, Run.result_bind_eq_error] at h
      simp only [Run.result_bind_pure_eq_error] at h
      rcases h with h | ⟨main', first, h⟩
      · obtain ⟨c, rfl, failed⟩ := exists_of_expandOption h
        obtain ⟨m, invoked, failed⟩ := below c (by simp [children]) failed
        exact ⟨m, .main invoked, failed⟩
      · obtain ⟨c, rfl, failed⟩ := exists_of_expandOption h
        obtain ⟨m, invoked, failed⟩ := below c (by simp [children]) failed
        exact ⟨m, .alternate first invoked, failed⟩
    | inclusion pos file block =>
      rw [expandNode, Run.result_bind_pure_eq_error] at h
      obtain ⟨pos', path, fullPath, c, rfl, failed⟩ :=
        exists_of_expandFile (isWellFormed_inclusion.1 wf).2.1 h
      obtain ⟨m, invoked, failed⟩ := below c (by simp [children, ast?]) failed
      exact ⟨m, .included invoked, failed⟩
    | extension pos file =>
      rw [expandNode, Run.result_bind_pure_eq_error] at h
      obtain ⟨pos', path, fullPath, c, rfl, failed⟩ :=
        exists_of_expandFile (isWellFormed_extension.1 wf).2 h
      obtain ⟨m, invoked, failed⟩ := below c (by simp [children, ast?]) failed
      exact ⟨m, .extended invoked, failed⟩

end Failures

structure SoundFor (page n : Node) : Prop where
  isWellFormed : n.isWellFormed = true
  stems : page.StemsFrom n

theorem SoundFor.of_mem_children {page n c : Node} (h : page.SoundFor n) (hc : c ∈ n.children) :
    page.SoundFor c :=
  ⟨isWellFormed_of_mem_children h.isWellFormed hc, h.stems.of_mem_children hc⟩

theorem SoundFor.of_mem_walk {page n m : Node} (h : page.SoundFor n) (hm : m ∈ n.walk) :
    page.SoundFor m :=
  ⟨isWellFormed_of_mem_walk h.isWellFormed hm, h.stems.of_mem_walk hm⟩

theorem soundFor_block {page : Node} {nodes : List Node} (each : ∀ n ∈ nodes, page.SoundFor n) :
    page.SoundFor (block {} nodes) :=
  ⟨isWellFormed_block rfl fun n hn => (each n hn).isWellFormed,
    stemsFrom_block fun n hn => (each n hn).stems⟩

/-- What calls return is well-formed and stems from the page, if the calls do. -/
def CallsKeep (page : Node) (call : Node → Recorded (List Node)) : Prop :=
  ∀ m part, m.isCall = true → page.SoundFor m → (call m).result = .ok part →
    ∀ k ∈ part, page.SoundFor k

theorem soundFor_both {page : Node} (keep : CallsKeep page call) (n : Node) :
    (∀ n', (expandNode call n).result = .ok n' → page.SoundFor n → page.SoundFor n') ∧
    ∀ part, Expanded call n part → page.SoundFor n → ∀ k ∈ part, page.SoundFor k := by
  revert n
  apply expand_induction
  case rebuilt =>
    intro n n' built sound
    have below : ∀ k ∈ n'.children, page.SoundFor k := by
      intro k hk
      obtain ⟨c, hc, part, piece, hk⟩ := built.exists_piece_of_mem hk
      cases piece with
      | listed _ related => exact related (sound.of_mem_children hc) k hk
      | single _ related =>
        rw [List.mem_singleton.1 hk]
        exact related.2 (sound.of_mem_children hc)
    refine ⟨?_, ?_⟩
    · exact built.isWellFormed sound.isWellFormed
        (fun _ c _ c' related => (expandNode_eq_ok related.1).bare_eq)
        fun k hk => (below k hk).isWellFormed
    · exact stemsFrom_of_mark?_eq sound.stems (mark?_eq_of_bare_eq built.bare_eq)
        fun k hk => (below k hk).stems
  case called =>
    intro n n' part isCall run ih returned sound
    have isCall' : n'.isCall = true := isCall_eq_of_tag?_eq (tag?_of_expandNode run) ▸ isCall
    exact keep n' part isCall' (ih sound) returned
  case kept =>
    intro n n' _ run ih sound k hk
    rw [List.mem_singleton.1 hk]
    exact ih sound

theorem soundFor_of_expandNode {page n n' : Node} (keep : CallsKeep page call) (sound : page.SoundFor n)
    (h : (expandNode call n).result = .ok n') : page.SoundFor n' :=
  (soundFor_both keep n).1 n' h sound

theorem soundFor_of_invokes {page n m : Node} (keep : CallsKeep page call) (sound : page.SoundFor n)
    (h : Invokes call n m) : page.SoundFor m := by
  obtain ⟨k, hk, -, run⟩ := exists_origin_of_invokes h
  exact soundFor_of_expandNode keep (sound.of_mem_walk hk) run

end PugComponents.Node

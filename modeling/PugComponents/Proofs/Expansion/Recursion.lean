import PugComponents.Proofs.Expansion.CallGraph
import PugComponents.Proofs.Failures
import Mathlib.Data.List.Chain
import Mathlib.Data.List.TakeWhile

/-! What a report of recursion says. Whenever a call is expanded, the components around it are distinct,
and each one is called in the body of the one before; what a call provides has been expanded before, so
that it cannot add to them. So a reported cycle is one of the bodies of the definitions. -/

namespace PugComponents

open Node

/-- The body of the first component has a call of the second, wherever it stands. -/
def MayCall (page : Node) (caller callee : String) : Prop :=
  ∃ body, Defines page caller body ∧ ∃ m ∈ body.walk, m.calledName? = some callee

/-- The components around a call of the last one. -/
structure Nested (page : Node) (reg : Registry) (stack : List String) (name : String) : Prop where
  nodup : stack.Nodup
  registered : ∀ n ∈ stack, n ∈ reg.names
  chain : (stack ++ [name]).IsChain (MayCall page)

/-- A cycle of distinct registered components, each called in the body of the one before. -/
structure IsCycle (page : Node) (reg : Registry) (cycle : List String) : Prop where
  closed : ∃ name between, cycle = name :: (between ++ [name])
  nodup : cycle.dropLast.Nodup
  registered : ∀ n ∈ cycle, n ∈ reg.names
  chain : cycle.IsChain (MayCall page)

variable {page : Node} {reg : Registry} {config : Config} {stack : List String} {name : String}

theorem nested_nil (page : Node) (reg : Registry) (name : String) : Nested page reg [] name :=
  ⟨List.nodup_nil, by simp, by simp⟩

theorem Nested.push (nested : Nested page reg stack name) (free : name ∉ stack)
    (known : name ∈ reg.names) {callee : String} (calls : MayCall page name callee) :
    Nested page reg (stack ++ [name]) callee := by
  have stacked := IsCallStack.push ⟨nested.nodup, nested.registered⟩ free known
  refine ⟨stacked.nodup, stacked.registered, ?_⟩
  refine List.IsChain.append nested.chain (by simp) ?_
  simpa using calls

theorem Nested.isCycle (nested : Nested page reg stack name) (around : name ∈ stack) :
    IsCycle page reg (Expansion.cycleAt stack name) := by
  have suffix : stack.dropWhile (· != name) <:+ stack := List.dropWhile_suffix _
  have starts : ∃ between, stack.dropWhile (· != name) = name :: between := by
    cases found : stack.dropWhile (· != name) with
    | nil => simpa using List.dropWhile_eq_nil_iff.1 found name around
    | cons first between =>
      have stops := List.head?_dropWhile_not (· != name) stack
      rw [found] at stops
      have same : first = name := by simpa using stops
      exact ⟨between, by rw [same]⟩
  obtain ⟨between, eq⟩ := starts
  refine ⟨⟨name, between, by rw [Expansion.cycleAt, eq, List.cons_append]⟩, ?_, ?_, ?_⟩
  · rw [Expansion.cycleAt, List.dropLast_concat]
    exact nested.nodup.sublist suffix.sublist
  · intro n hn
    refine nested.registered n ?_
    rcases List.mem_append.1 hn with hn | hn
    · exact suffix.subset hn
    · exact List.mem_singleton.1 hn ▸ around
  · refine nested.chain.suffix ?_
    obtain ⟨outer, split⟩ := suffix
    exact ⟨outer, by rw [Expansion.cycleAt, ← List.append_assoc, split]⟩

theorem mayCall_of_mentions (described : Registers page reg) {d : Definition}
    (found : reg.get? name = some d) {callee : String} {n : Node} (hn : n ∈ d.nodes)
    (mentions : n.Mentions callee) : MayCall page name callee := by
  obtain ⟨tag, htag, describes⟩ := exists_of_forall₂_right described (Registry.mem_of_get? found)
  obtain ⟨member, isDefinition⟩ := List.mem_filter.1 htag
  have declared : tag.declaredName? = some name := Registry.name_of_get? found ▸ describes.name
  exact ⟨_, ⟨tag, member, isDefinition, declared, rfl⟩, describes.mentions callee n hn mentions⟩

theorem exists_failing_call {call : Node → Recorded (List Node)} (returns : CallsReturn Settled call)
    {ns : List Node} (wf : ∀ n ∈ ns, n.isWellFormed = true) {e : Failure} {cycle : List String}
    (h : FailsAmong call e ns) (recursive : e.cycle? = some cycle) :
    ∃ m callee, m.IsReady ∧ m.calledName? = some callee ∧ (call m).result = .error e ∧
      ∃ n ∈ ns, n.Mentions callee := by
  rcases exists_failsAt_of_failsAmong h with ⟨f, rfl⟩ | ⟨n, hn, m, hm, isCall, m', run, failed⟩
  · cases recursive
  · obtain ⟨callee, called⟩ := exists_calledName? isCall
    have ready := isReady_of_expandNode returns (isWellFormed_of_mem_walk (wf n hn) hm) isCall run
    have called' := (calledName?_eq_of_tag?_eq (tag?_of_expandNode run)).trans called
    exact ⟨m', callee, ready, called', failed, n, hn, m, hm, called⟩

/-- An expanded call that fails: its component is not found or is being expanded already, or its body
cannot be instantiated or is nested too deep, or a call in the body fails. -/
theorem Expansion.expandCall_eq_error {x : Expansion} {depth : Nat} {call : Node} {e : Failure}
    (h : (x.expandCall depth stack call).result = .error e) :
    x.target stack call = .error e ∨ ∃ d, x.target stack call = .ok d ∧
      ((x.instantiate d call).result = .error e ∨ (∃ f, e = .fault f) ∨
        ∃ nodes rest, depth = rest + 1 ∧ (x.instantiate d call).result = .ok nodes ∧
          (expandBlock (x.expandCall rest (stack ++ [d.name])) nodes).result = .error e) := by
  rw [← expandCallWithin_depthLimit] at h
  rcases expandCallWithin_eq_error h with h | ⟨d, found, h⟩
  · exact .inl h
  refine .inr ⟨d, found, ?_⟩
  rw [instantiateWithin_depthLimit] at h
  rcases h with h | ⟨nodes, made, ⟨-, rfl⟩ | ⟨rest, depth_eq, h⟩⟩
  · exact .inl h
  · exact .inr (.inl ⟨_, rfl⟩)
  · rw [funext (expandCallWithin_depthLimit x rest _)] at h
    exact .inr (.inr ⟨nodes, rest, depth_eq, made, h⟩)

/-- A call that reports recursion closes a cycle itself, or a call in its body reports it, for which
the components around it have been extended. -/
theorem isCycle_or_deeper (described : Registers page reg)
    (bodies : (Expansion.mk reg config).HasBodies) {depth : Nat} {call : Node} {e : Failure}
    {cycle : List String} (nested : Nested page reg stack name) (ready : call.IsReady)
    (called : call.calledName? = some name)
    (h : ((Expansion.mk reg config).expandCall depth stack call).result = .error e)
    (recursive : e.cycle? = some cycle) :
    IsCycle page reg cycle ∨ ∃ rest m callee, depth = rest + 1 ∧
      Nested page reg (stack ++ [name]) callee ∧ m.IsReady ∧ m.calledName? = some callee ∧
      ((Expansion.mk reg config).expandCall rest (stack ++ [name]) m).result = .error e := by
  have impossible : e.cycle? ≠ none := by simp [recursive]
  rcases Expansion.expandCall_eq_error h with h | ⟨d, target, h⟩
  · left
    rcases Expansion.target_cases (.mk reg config) stack called with
      ⟨around, eq⟩ | ⟨-, -, eq⟩ | ⟨-, d, -, eq⟩
    · obtain rfl := Except.error.inj (eq.symm.trans h)
      rw [cycle?_report, Cause.cycle?, Option.some.injEq] at recursive
      exact recursive ▸ nested.isCycle around
    · obtain rfl := Except.error.inj (eq.symm.trans h)
      rw [cycle?_report] at impossible
      exact absurd rfl impossible
    · rw [eq] at h
      cases h
  · obtain ⟨free, found⟩ := Expansion.target_eq_ok called target
    -- Neither binding and filling nor the limit on nesting reports recursion.
    rcases h with h | ⟨f, rfl⟩ | ⟨nodes, rest, depth_eq, made, h⟩
    · exact absurd (Expansion.plain_instantiate _ d call e h) impossible
    · exact absurd rfl impossible
    · right
      rw [Registry.name_of_get? found] at h
      have body :=
        Expansion.isWellFormed_of_instantiate made ready (bodies d (Registry.mem_of_get? found))
      obtain ⟨m, callee, ready', called', failed, k, hk, mentions⟩ := exists_failing_call
        (Expansion.expandCall_settled bodies rest _) (fun n hn => (body n hn).1)
        (failsAmong_of_expandBlock h) recursive
      obtain ⟨n, hn, mentions⟩ := Expansion.mentions_of_instantiate made ready hk mentions
      have calls := mayCall_of_mentions described found hn mentions
      have deeper := nested.push free (Registry.mem_names_of_get? found) calls
      exact ⟨rest, m, callee, depth_eq, deeper, ready', called', failed⟩

theorem isCycle_of_expandCall (described : Registers page reg)
    (bodies : (Expansion.mk reg config).HasBodies) {depth : Nat} {call : Node} {e : Failure}
    {cycle : List String} (nested : Nested page reg stack name) (ready : call.IsReady)
    (called : call.calledName? = some name)
    (h : ((Expansion.mk reg config).expandCall depth stack call).result = .error e)
    (recursive : e.cycle? = some cycle) : IsCycle page reg cycle := by
  induction depth generalizing stack name call with
  | zero =>
    rcases isCycle_or_deeper described bodies nested ready called h recursive with
      found | ⟨rest, _, _, depth_eq, -⟩
    · exact found
    · cases depth_eq
  | succ depth ih =>
    rcases isCycle_or_deeper described bodies nested ready called h recursive with
      found | ⟨rest, m, callee, ⟨rfl⟩, deeper, ready', called', failed⟩
    · exact found
    · exact ih deeper ready' called' failed

theorem transGen_of_isChain {R : String → String → Prop} {first last : String} {between : List String}
    (chain : (first :: (between ++ [last])).IsChain R) : Relation.TransGen R first last := by
  induction between generalizing first with
  | nil => exact .single (by simpa using chain)
  | cons next between ih =>
    rw [List.cons_append, List.isChain_cons_cons] at chain
    exact .head chain.1 (ih chain.2)

theorem cycle?_reportDepth (config : Config) (root : Node) (e : Failure) :
    (Session.reportDepth config root e).cycle? = e.cycle? := by
  unfold Session.reportDepth
  split
  · exact cycle?_report _ _ _
  · rfl

/-- Recursion is reported with a cycle of distinct registered components, each of which is called in the
body of the one before; so without a cycle among the definitions it is not reported. -/
theorem cycle_of_expand (isBlock : page.isBlock = true) (wf : page.isWellFormed = true) {e : Failure}
    {cycle : List String} (h : (expand config page).result = .error e)
    (recursive : e.cycle? = some cycle) :
    2 ≤ cycle.length ∧ cycle.head? = cycle.getLast? ∧ cycle.dropLast.Nodup ∧
      (∀ name ∈ cycle, name ∈ (registered {} config page).names) ∧ cycle.IsChain (MayCall page) ∧
      ∃ name, Relation.TransGen (MayCall page) name name := by
  obtain ⟨e', rfl, failed⟩ := expand_eq_error isBlock wf h
  rw [cycle?_reportDepth] at recursive
  have isCycle : IsCycle page (registered {} config page) cycle := by
    rcases failed with failed | ⟨described, failed⟩
    · have plain : e'.cycle? = none := Detection.plain_ofList config Registry.empty page.walk e' failed
      rw [recursive] at plain
      cases plain
    · have bodies := hasBodies_of_described wf described
      obtain ⟨m, callee, ready, called, failed, -⟩ := exists_failing_call (call_settled wf described)
        (fun c hc => isWellFormed_of_mem_children wf hc) (expandNode_eq_error failed) recursive
      exact isCycle_of_expandCall described bodies (nested_nil _ _ callee) ready called failed recursive
  obtain ⟨name, between, rfl⟩ := isCycle.closed
  have last : (name :: (between ++ [name])).getLast? = some name := by
    rw [← List.cons_append, List.getLast?_concat]
  refine ⟨by simp, by rw [last]; rfl, isCycle.nodup, isCycle.registered, isCycle.chain, name, ?_⟩
  exact transGen_of_isChain isCycle.chain

/-- Two components that call each other, and that nothing else calls. -/
def mutualPage : Node :=
  block {} [plainTag "component" [plainText "Ping()", plainTag "Pong" []],
    plainTag "component" [plainText "Pong()", plainTag "Ping" []]]

def reportedCycle? (run : Recorded Node) : Option (List String) :=
  match run.result with
  | .error e => e.cycle?
  | .ok _ => none

theorem exists_error_of_reportedCycle? {run : Recorded Node} {cycle : List String}
    (h : reportedCycle? run = some cycle) : ∃ e, run.result = .error e ∧ e.cycle? = some cycle := by
  unfold reportedCycle? at h
  split at h
  · exact ⟨_, ‹_›, h⟩
  · cases h

theorem cycle_mutualPage : reportedCycle? (expand {} mutualPage) = some ["Pong", "Ping", "Pong"] ∧
    ["Pong", "Ping", "Pong"].IsChain (MayCall mutualPage) := by
  have reported : reportedCycle? (expand {} mutualPage) = some ["Pong", "Ping", "Pong"] := by
    decide +kernel
  obtain ⟨e, failed, recursive⟩ := exists_error_of_reportedCycle? reported
  have found := cycle_of_expand (by decide +kernel) (by decide +kernel) failed recursive
  exact ⟨reported, found.2.2.2.2.1⟩

end PugComponents

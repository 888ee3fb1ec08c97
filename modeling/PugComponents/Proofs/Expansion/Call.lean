import PugComponents.Proofs.Attributes.Injection
import PugComponents.Proofs.Expansion.Limits
import PugComponents.Proofs.Slots.Filling
import PugComponents.Proofs.Slots.Loose
import Mathlib.Data.List.Nodup
import Mathlib.Data.List.Perm.Subperm

/-! What the expansion of one call does. The component is a registered one that is not being expanded
around the call, so that the components around a call are always distinct. Its body, instantiated for the
call, has slots in calls only, and calls the same components as before, up to those that stood in slots.
What takes the place of the call is well-formed and has neither calls nor slots. -/

namespace PugComponents

namespace Node

theorem targetName_of_calledName? {n : Node} {name : String} (h : n.calledName? = some name) :
    n.targetName = .ok name := by
  obtain ⟨pos, element, block, rfl⟩ := exists_tag_of_isCall (isCall_of_calledName? h)
  obtain ⟨label, attrs, spreads, selfClosing, isInline⟩ := element
  cases label with
  | str text =>
    simp only [calledName?, tag?] at h
    split at h
    · simpa [targetName] using h
    · cases h
  | _ => simp [calledName?, tag?] at h

theorem exists_calledName? {n : Node} (h : n.isCall = true) : ∃ name, n.calledName? = some name :=
  Option.isSome_iff_exists.1 h

end Node

namespace Registry

theorem mem_of_get? {reg : Registry} {name : String} {d : Definition} (h : reg.get? name = some d) :
    d ∈ reg.definitions :=
  List.mem_of_find?_eq_some h

theorem get?_of_mem {reg : Registry} {d : Definition} (h : d ∈ reg.definitions) :
    reg.get? d.name = some d := by
  cases found : reg.get? d.name with
  | none => exact absurd (List.mem_map_of_mem h) (get?_eq_none_iff.1 found)
  | some d' =>
    have same : d' = d :=
      List.inj_on_of_nodup_map reg.nodup (mem_of_get? found) h (name_of_get? found)
    rw [same]

theorem mem_names_of_get? {reg : Registry} {name : String} {d : Definition}
    (h : reg.get? name = some d) : name ∈ reg.names := by
  rw [← name_of_get? h]
  exact List.mem_map_of_mem (mem_of_get? h)

theorem get?_eq_some_iff {reg : Registry} {name : String} {d : Definition} :
    reg.get? name = some d ↔ d ∈ reg.definitions ∧ d.name = name := by
  constructor
  · intro h
    exact ⟨mem_of_get? h, name_of_get? h⟩
  · rintro ⟨hd, rfl⟩
    exact get?_of_mem hd

end Registry

/-- The components around a call are distinct registered ones. -/
structure IsCallStack (reg : Registry) (stack : List String) : Prop where
  nodup : stack.Nodup
  registered : ∀ name ∈ stack, name ∈ reg.names

namespace IsCallStack

variable {reg : Registry} {stack : List String} {name : String}

theorem nil (reg : Registry) : IsCallStack reg [] := ⟨List.nodup_nil, by simp⟩

theorem push (h : IsCallStack reg stack) (free : name ∉ stack) (known : name ∈ reg.names) :
    IsCallStack reg (stack ++ [name]) := by
  refine ⟨List.concat_eq_append ▸ h.nodup.concat free, fun n hn => ?_⟩
  rcases List.mem_append.1 hn with hn | hn
  · exact h.registered n hn
  · exact List.mem_singleton.1 hn ▸ known

theorem length_le (h : IsCallStack reg stack) : stack.length ≤ reg.definitions.length := by
  have within := (h.nodup.subperm h.registered).length_le
  rwa [Registry.names, List.length_map] at within

end IsCallStack

namespace Expansion

open Node

variable {x : Expansion} {stack : List String} {call : Node} {d : Definition} {name : String}

/-- The cycle that a call of one of the components around it closes. -/
def cycleAt (stack : List String) (name : String) : List String :=
  stack.dropWhile (· != name) ++ [name]

theorem target_cases (x : Expansion) (stack : List String) (called : call.calledName? = some name) :
    (name ∈ stack ∧ x.target stack call = .error (.diagnostic
      (x.config.reporter.report (.recursiveCall (cycleAt stack name)) (some call.location)))) ∨
    (name ∉ stack ∧ x.registry.get? name = none ∧ x.target stack call = .error (.diagnostic
      (x.config.reporter.report (.componentNotFound name x.registry.names) (some call.location)))) ∨
    (name ∉ stack ∧ ∃ d, x.registry.get? name = some d ∧ x.target stack call = .ok d) := by
  have known : call.targetName = .ok name := targetName_of_calledName? called
  by_cases around : name ∈ stack
  · refine .inl ⟨around, ?_⟩
    simp [target, known, bind, Except.bind, around, cycleAt]
  · refine .inr ?_
    cases found : x.registry.get? name with
    | none => exact .inl ⟨around, rfl, by simp [target, known, bind, Except.bind, around, found]⟩
    | some d => exact .inr ⟨around, d, rfl, by simp [target, known, bind, Except.bind, around, found]⟩

theorem target_eq_ok (called : call.calledName? = some name) (h : x.target stack call = .ok d) :
    name ∉ stack ∧ x.registry.get? name = some d := by
  rcases target_cases x stack called with ⟨_, eq⟩ | ⟨_, _, eq⟩ | ⟨free, d', found, eq⟩
  · rw [eq] at h
    cases h
  · rw [eq] at h
    cases h
  · rw [eq] at h
    cases h
    exact ⟨free, found⟩

theorem isCallStack_of_target (h : IsCallStack x.registry stack) (isCall : call.isCall = true)
    (found : x.target stack call = .ok d) : IsCallStack x.registry (stack ++ [d.name]) := by
  obtain ⟨name, called⟩ := exists_calledName? isCall
  obtain ⟨free, registered⟩ := target_eq_ok called found
  rw [Registry.name_of_get? registered]
  exact h.push free (Registry.mem_names_of_get? registered)

/-- What one call makes of the body: injected with the attributes, and filled. -/
theorem instantiate_eq_ok {nodes : List Node} (h : (x.instantiate d call).result = .ok nodes) :
    ∃ provided bindings injected, Provided.ofCall x.config.reporter call = .ok provided ∧
      (injectAttributes d.name d.usage bindings call.pos d.nodes).result = .ok injected ∧
      provided.fill x.config.reporter injected = .ok nodes := by
  rw [← instantiateWithin_depthLimit, instantiateWithin, Run.result_bind_eq_ok] at h
  obtain ⟨⟨provided, injected⟩, prepared, filling⟩ := h
  obtain ⟨given, bindings, injection⟩ := prepare_eq_ok prepared
  exact ⟨provided, bindings, injected, given, injection, filling⟩

section Instantiate

variable {nodes : List Node} (h : (x.instantiate d call).result = .ok nodes)
include h

theorem isWellFormed_of_instantiate (ready : call.IsReady)
    (bodies : ∀ n ∈ d.nodes, n.isWellFormed = true) :
    ∀ n ∈ nodes, n.isWellFormed = true ∧ n.SlotFree := by
  obtain ⟨provided, bindings, injected, given, injection, filling⟩ := instantiate_eq_ok h
  have content := Provided.isWellFormed_of_mem ready.isCall ready.isWellFormed given
  have wf : ∀ n ∈ injected, n.isWellFormed = true :=
    isWellFormed_of_injectAttributes (isTyped_pos ready.isWellFormed) bodies injection
  intro n hn
  exact ⟨Provided.isWellFormed_of_fill content wf filling n hn,
    Provided.slotFree_of_fill content wf filling n hn⟩

theorem mentions_of_instantiate (ready : call.IsReady) {k : Node} (hk : k ∈ nodes)
    (mentions : k.Mentions name) : ∃ n ∈ d.nodes, n.Mentions name := by
  obtain ⟨provided, bindings, injected, given, injection, filling⟩ := instantiate_eq_ok h
  have content := Provided.callFree_of_mem ready.isCall ready.below given
  obtain ⟨m, hm, mentions⟩ := Provided.mentions_of_fill content filling hk mentions
  exact mentions_of_injectAttributes injection hm mentions

theorem mentions_of_retains {n : Node} (hn : n ∈ d.nodes) (retains : n.Retains name) :
    ∃ k ∈ nodes, k.Mentions name := by
  obtain ⟨provided, bindings, injected, given, injection, filling⟩ := instantiate_eq_ok h
  obtain ⟨m, hm, retains⟩ := retains_of_injectAttributes injection hn retains
  exact Provided.mentions_of_retains filling hm retains

end Instantiate

def HasBodies (x : Expansion) : Prop :=
  ∀ d ∈ x.registry.definitions, ∀ n ∈ d.nodes, n.isWellFormed = true

theorem expandCall_eq_ok {depth : Nat} {out : List Node}
    (h : (x.expandCall depth stack call).result = .ok out) :
    ∃ d nodes rest, depth = rest + 1 ∧ x.target stack call = .ok d ∧
      (x.instantiate d call).result = .ok nodes ∧
      (expandBlock (x.expandCall rest (stack ++ [d.name])) nodes).result = .ok out := by
  rw [← expandCallWithin_depthLimit] at h
  obtain ⟨d, nodes, rest, depth_eq, found, made, run⟩ := expandCallWithin_eq_ok h
  rw [instantiateWithin_depthLimit] at made
  rw [funext (expandCallWithin_depthLimit x rest _)] at run
  exact ⟨d, nodes, rest, depth_eq, found, made, run⟩

theorem expandCall_eq_ok_of_called {depth : Nat} {out : List Node}
    (called : call.calledName? = some name) (h : (x.expandCall depth stack call).result = .ok out) :
    name ∉ stack ∧ ∃ d nodes rest, depth = rest + 1 ∧ x.registry.get? name = some d ∧
      (x.instantiate d call).result = .ok nodes ∧
      (expandBlock (x.expandCall rest (stack ++ [name])) nodes).result = .ok out := by
  obtain ⟨d, nodes, rest, depth_eq, found, made, run⟩ := expandCall_eq_ok h
  obtain ⟨free, registered⟩ := target_eq_ok called found
  rw [Registry.name_of_get? registered] at run
  exact ⟨free, d, nodes, rest, depth_eq, registered, made, run⟩

/-- What takes the place of a call is well-formed and has neither calls nor slots. -/
theorem expandCall_returns (bodies : x.HasBodies) (depth : Nat) (stack : List String) :
    CallsReturn (fun k => k.Settled ∧ k.Lacks isSlot) (x.expandCall depth stack) := by
  induction depth generalizing stack with
  | zero =>
    intro m part _ h
    obtain ⟨_, _, _, depth_eq, -⟩ := expandCall_eq_ok h
    cases depth_eq
  | succ depth ih =>
    intro m part ready h k hk
    obtain ⟨name, called⟩ := exists_calledName? ready.isCall
    obtain ⟨-, d, nodes, _, ⟨rfl⟩, found, made, run⟩ := expandCall_eq_ok_of_called called h
    have inner := ih (stack ++ [name])
    have settled : CallsReturn Settled (x.expandCall depth (stack ++ [name])) :=
      fun m part ready h k hk => (inner m part ready h k hk).1
    have slotless : CallsReturn (Lacks isSlot) (x.expandCall depth (stack ++ [name])) :=
      fun m part ready h k hk => (inner m part ready h k hk).2
    have body := isWellFormed_of_instantiate made ready (bodies d (Registry.mem_of_get? found))
    obtain ⟨parts, related, rfl⟩ := expandBlock_eq_ok run
    obtain ⟨part, hpart, hk⟩ := List.mem_flatten.1 hk
    obtain ⟨n, hn, expanded⟩ := exists_of_forall₂_right related hpart
    obtain ⟨wf, free⟩ := body n hn
    have done : k.Settled := settled_of_expanded settled wf expanded k hk
    refine ⟨done, ?_⟩
    -- The body has no slots outside of calls, and there are no calls left.
    have same := (slotsUntil_both_of_expand (fun _ _ => isCall_eq_of_tag?_eq) (fun _ => id) settled
      slotless n).2 part expanded wf
    rw [slotsUntil_eq_nil_iff.2 free, List.flatMap_eq_nil_iff] at same
    intro m hm
    have outside := slotsUntil_eq_nil_iff.1 (same k hk)
    rw [walkUntil_eq_walk done.2] at outside
    exact outside m hm

theorem expandCall_settled (bodies : x.HasBodies) (depth : Nat) (stack : List String) :
    CallsReturn Settled (x.expandCall depth stack) :=
  fun m part ready h k hk => (expandCall_returns bodies depth stack m part ready h k hk).1

theorem expandCall_slotless (bodies : x.HasBodies) (depth : Nat) (stack : List String) :
    CallsReturn (Lacks isSlot) (x.expandCall depth stack) :=
  fun m part ready h k hk => (expandCall_returns bodies depth stack m part ready h k hk).2

end Expansion

end PugComponents

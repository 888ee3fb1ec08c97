import PugComponents.Expansion
import PugComponents.Proofs.Outcome

/-! Expansion with any bound on the nesting, of calls in bodies and of content in content. With the bound
that is built in it is the expansion itself. What is known of the steps of one call is stated here, for
every bound. -/

namespace PugComponents.Expansion

open Node

/-- What the slots of a body are filled with for one call, and the body with the attributes bound. -/
def prepare (x : Expansion) (d : Definition) (call : Node) : Recorded (Provided × List Node) := do
  let r := x.config.reporter
  let provided ← Provided.ofCall r call
  let bindings ← match call.attrs? with
    | some attrs => Bindings.ofAttributes attrs
    | none => Except.error (Failure.fault .missingPart)
  let nodes ← injectAttributes d.name d.usage bindings call.pos d.nodes
  provided.check r d.slotNames call.location
  return (provided, nodes)

/-- The body of a component for one call, with content replaced inside content up to the limit. -/
def instantiateWithin (x : Expansion) (limit : Nat) (d : Definition) (call : Node) :
    Recorded (List Node) := do
  let (provided, nodes) ← x.prepare d call
  fillNodes x.config.reporter (provided.filling x.config.reporter limit) nodes

def expandCallWithin (x : Expansion) (limit : Nat) : Nat → List String → Node → Recorded (List Node)
  | depth, stack, call => do
    let d ← x.target stack call
    x.announce stack d call
    let nodes ← x.instantiateWithin limit d call
    match depth with
    | 0 => Run.fail (.fault .tooDeep)
    | depth + 1 => expandBlock (x.expandCallWithin limit depth (stack ++ [d.name])) nodes

theorem instantiateWithin_depthLimit (x : Expansion) (d : Definition) (call : Node) :
    x.instantiateWithin Provided.depthLimit d call = x.instantiate d call := by
  simp only [instantiateWithin, prepare, instantiate, Run.bind_assoc, Provided.fill]
  congr 1
  funext provided
  cases call.attrs? <;> simp only [Run.bind_assoc, Run.pure_bind]

theorem expandCallWithin_depthLimit (x : Expansion) (depth : Nat) (stack : List String) (call : Node) :
    x.expandCallWithin Provided.depthLimit depth stack call = x.expandCall depth stack call := by
  induction depth generalizing stack call with
  | zero =>
    rw [expandCallWithin, expandCall]
    simp only [instantiateWithin_depthLimit]
  | succ depth ih =>
    rw [expandCallWithin, expandCall]
    simp only [instantiateWithin_depthLimit]
    congr 1
    funext d
    rw [funext (ih (stack ++ [d.name]))]

variable {x : Expansion} {limit depth : Nat} {stack : List String} {d : Definition} {call : Node}

theorem prepare_eq_ok {provided : Provided} {nodes : List Node}
    (h : (x.prepare d call).result = .ok (provided, nodes)) :
    Provided.ofCall x.config.reporter call = .ok provided ∧
      ∃ bindings, (injectAttributes d.name d.usage bindings call.pos d.nodes).result = .ok nodes := by
  rw [prepare, Run.result_bind_eq_ok] at h
  obtain ⟨provided', given, h⟩ := h
  split at h
  · simp only [Run.result_bind_eq_ok, Run.result_pure, Except.ok.injEq, Prod.mk.injEq] at h
    obtain ⟨bindings, -, injected, injection, -, -, rfl, rfl⟩ := h
    exact ⟨given, bindings, injection⟩
  · rw [Run.result_bind_eq_ok] at h
    obtain ⟨_, ⟨⟩, -⟩ := h

theorem announce_eq_ok (x : Expansion) (stack : List String) (d : Definition) (call : Node) :
    (x.announce stack d call).result = .ok () := by
  unfold announce
  split <;> rfl

theorem expandCallWithin_eq_ok {out : List Node}
    (h : (x.expandCallWithin limit depth stack call).result = .ok out) :
    ∃ d nodes rest, depth = rest + 1 ∧ x.target stack call = .ok d ∧
      (x.instantiateWithin limit d call).result = .ok nodes ∧
      (expandBlock (x.expandCallWithin limit rest (stack ++ [d.name])) nodes).result = .ok out := by
  rw [expandCallWithin, Run.result_bind_eq_ok] at h
  obtain ⟨d, found, h⟩ := h
  simp only [Run.result_bind_eq_ok] at h
  obtain ⟨_, -, nodes, made, h⟩ := h
  cases depth with
  | zero => cases h
  | succ rest => exact ⟨d, nodes, rest, rfl, found, made, h⟩

theorem expandCallWithin_eq_error {e : Failure}
    (h : (x.expandCallWithin limit depth stack call).result = .error e) :
    x.target stack call = .error e ∨ ∃ d, x.target stack call = .ok d ∧
      ((x.instantiateWithin limit d call).result = .error e ∨
        ∃ nodes, (x.instantiateWithin limit d call).result = .ok nodes ∧
          (depth = 0 ∧ e = .fault .tooDeep ∨ ∃ rest, depth = rest + 1 ∧
            (expandBlock (x.expandCallWithin limit rest (stack ++ [d.name])) nodes).result =
              .error e)) := by
  rw [expandCallWithin, Run.result_bind_eq_error] at h
  rcases h with h | ⟨d, found, h⟩
  · exact .inl h
  refine .inr ⟨d, found, ?_⟩
  rcases Run.result_bind_eq_error.1 h with h | ⟨_, -, h⟩
  · simp [announce_eq_ok] at h
  rcases Run.result_bind_eq_error.1 h with h | ⟨nodes, made, h⟩
  · exact .inl h
  refine .inr ⟨nodes, made, ?_⟩
  cases depth with
  | zero => exact .inl ⟨rfl, by simpa using h.symm⟩
  | succ rest => exact .inr ⟨rest, rfl, h⟩

end PugComponents.Expansion

import PugComponents.Proofs.Attributes.Injection
import PugComponents.Proofs.Expansion.Call
import PugComponents.Proofs.Expansion.Invoked
import PugComponents.Proofs.Slots.Reports

/-! How the body of a component is instantiated for a call, if both are well-formed and stem from a page.
What is made of them is so, too, through all calls that are expanded in turn. A body that cannot be
instantiated has a node of the page reported, or content nests deeper than it may. -/

namespace PugComponents.Expansion

open Node Outcome

section Instantiation

variable {x : Expansion} {d : Definition} {page call : Node}

variable (isCall : call.isCall = true) (sound : page.SoundFor call)
  (body : ∀ n ∈ d.nodes, page.SoundFor n)
include isCall sound body

theorem soundFor_of_prepare {provided : Provided} {nodes : List Node}
    (h : (x.prepare d call).result = .ok (provided, nodes)) :
    (∀ entry ∈ provided, page.SoundFor entry.2) ∧ ∀ n ∈ nodes, page.SoundFor n := by
  obtain ⟨given, bindings, injection⟩ := prepare_eq_ok h
  have contentWf := Provided.isWellFormed_of_mem isCall sound.isWellFormed given
  have contentStems := Provided.stemsFrom_of_mem isCall sound.stems given
  have nodesWf := isWellFormed_of_injectAttributes (isTyped_pos sound.isWellFormed)
    (fun n hn => (body n hn).isWellFormed) injection
  have nodesStem := stemsFrom_of_injectAttributes (fun n hn => (body n hn).stems) injection
  exact ⟨fun entry he => ⟨contentWf entry he, contentStems entry he⟩,
    fun n hn => ⟨nodesWf n hn, nodesStem n hn⟩⟩

theorem reportsIn_of_prepare :
    FailsOnly (Failure.ReportsIn x.config.reporter page) (x.prepare d call).result := by
  have atCall : ∀ e : Failure, e.Reports x.config.reporter call → e.ReportsIn x.config.reporter page :=
    fun e reports => reports.reportsIn sound.stems
  refine Run.failsOnly_bind ?_ fun provided _ => ?_
  · intro e h
    obtain ⟨n, hn, reports⟩ := Provided.reportsIn_of_ofCall isCall sound.isWellFormed h
    exact reports.reportsIn (sound.stems.of_mem_walk hn)
  obtain ⟨pos, element, block, rfl⟩ := exists_tag_of_isCall isCall
  have typed : element.attrs.all Attribute.isTyped = true := by
    have head := (isWellFormed_owner.1 sound.isWellFormed).2.1
    simp only [Owner.isTyped, Element.isTyped, Bool.and_eq_true] at head
    tauto
  obtain ⟨bindings, binds, texts⟩ := exists_ofAttributes typed
  refine Run.failsOnly_bind (binds ▸ failsOnly_ok _) fun bound same => ?_
  obtain rfl : bindings = bound := Except.ok.inj (binds.symm.trans same)
  refine Run.failsOnly_bind ?_ fun nodes _ => ?_
  · exact (sure_injectAttributes texts fun n hn => (body n hn).isWellFormed).failsOnly
  exact Run.failsOnly_bind (fun e h => atCall e (Provided.reports_of_check isCall h))
    fun _ _ => failsOnly_ok _

theorem soundFor_of_instantiateWithin {limit : Nat} {nodes : List Node}
    (h : (x.instantiateWithin limit d call).result = .ok nodes) : ∀ n ∈ nodes, page.SoundFor n := by
  rw [instantiateWithin, Run.result_bind_eq_ok] at h
  obtain ⟨⟨provided, injected⟩, prepared, filling⟩ := h
  obtain ⟨content, injected⟩ := soundFor_of_prepare isCall sound body prepared
  intro n hn
  exact ⟨Provided.isWellFormed_of_fill (fun entry he => (content entry he).isWellFormed)
      (fun n hn => (injected n hn).isWellFormed) filling n hn,
    Provided.inherited_of_fill (inherited_stemsFrom page) (fun entry he => (content entry he).stems)
      (fun n hn => (injected n hn).stems) filling n hn⟩

theorem instantiateWithin_eq_error {limit : Nat} {e : Failure}
    (h : (x.instantiateWithin limit d call).result = .error e) :
    e.ReportsIn x.config.reporter page ∨ e = .fault .tooDeep ∧
      ∃ provided nodes, (x.prepare d call).result = .ok (provided, nodes) ∧
        provided.Nests x.config.reporter (limit + 1) nodes := by
  rw [instantiateWithin, Run.result_bind_eq_error] at h
  rcases h with h | ⟨⟨provided, nodes⟩, prepared, h⟩
  · exact .inl (reportsIn_of_prepare isCall sound body e h)
  · obtain ⟨content, injected⟩ := soundFor_of_prepare isCall sound body prepared
    have blocks := Provided.nodes?_of_mem isCall sound.isWellFormed (prepare_eq_ok prepared).1
    rcases Provided.fill_eq_error (fun entry he => (content entry he).isWellFormed) blocks
      (fun entry he => (content entry he).stems) (fun n hn => (injected n hn).isWellFormed)
      (fun n hn => (injected n hn).stems) h with reports | ⟨rfl, nests⟩
    · exact .inl reports
    · exact .inr ⟨rfl, provided, nodes, prepared, nests⟩

end Instantiation

variable {x : Expansion} {stack : List String} {page call : Node}

def HasSoundBodies (x : Expansion) (page : Node) : Prop :=
  ∀ d ∈ x.registry.definitions, ∀ n ∈ d.nodes, page.SoundFor n

theorem HasSoundBodies.of_target (bodies : x.HasSoundBodies page) (isCall : call.isCall = true)
    {d : Definition} (h : x.target stack call = .ok d) : ∀ n ∈ d.nodes, page.SoundFor n := by
  obtain ⟨name, called⟩ := exists_calledName? isCall
  exact bodies d (Registry.mem_of_get? (target_eq_ok called h).2)

theorem callsKeep_expandCallWithin (bodies : x.HasSoundBodies page) (limit depth : Nat)
    (stack : List String) : CallsKeep page (x.expandCallWithin limit depth stack) := by
  induction depth generalizing stack with
  | zero =>
    intro m part _ _ h
    obtain ⟨_, _, _, depth_eq, -⟩ := expandCallWithin_eq_ok h
    cases depth_eq
  | succ depth ih =>
    intro m part isCall sound h k hk
    obtain ⟨d, nodes, _, ⟨rfl⟩, found, made, run⟩ := expandCallWithin_eq_ok h
    have inner := soundFor_of_instantiateWithin isCall sound (bodies.of_target isCall found) made
    have whole : (expandNode (x.expandCallWithin limit depth (stack ++ [d.name]))
        (block {} nodes)).result = .ok (block {} part) := by
      rw [block, expandNode_seq, Run.result_bind_eq_ok]
      exact ⟨part, run, rfl⟩
    exact (soundFor_of_expandNode (ih _) (soundFor_block inner) whole).of_mem_children hk

end PugComponents.Expansion

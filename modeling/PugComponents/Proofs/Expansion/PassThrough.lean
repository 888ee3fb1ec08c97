import PugComponents.Proofs.Attributes.Forwarding
import PugComponents.Proofs.Expansion.Call
import PugComponents.Proofs.Expansion.NormalForm

/-! Where the attributes that a component passes on end up. A root element that is no call spreads them
in the expanded tree. A root element that is a call is given the same spread before it is expanded in
turn, but a call takes only the attributes that are written one by one: what the inner component makes
of it is what it makes of the call without the spread, and the attributes are lost. -/

namespace PugComponents

open Node

theorem Provided.exists_tag_of_fill {r : Reporter} {provided : Provided} {nodes filled : List Node}
    (h : provided.fill r nodes = .ok filled) {n : Node} (hn : n ∈ nodes) (notSlot : n.isSlot = false) :
    ∃ m ∈ filled, m.tag? = n.tag? := by
  obtain ⟨parts, related, rfl⟩ := fillNodes_eq_ok h
  obtain ⟨part, hpart, filled⟩ := exists_of_forall₂_left related hn
  cases filled with
  | other _ run =>
    exact ⟨_, List.mem_flatten_of_mem hpart (List.mem_singleton_self _),
      tag?_eq_of_bare_eq (bare_of_fillNode run)⟩
  | provided slot => simp [notSlot] at slot
  | empty slot => simp [notSlot] at slot
  | default slot => simp [notSlot] at slot

namespace Expansion

variable {x : Expansion} {stack : List String} {call root : Node} {d : Definition} {name : String}
  {depth : Nat} {before after nodes out : List Node} {element : Element}

theorem expandCall_withSpreads (tag : call.tag? = some element) (spreads : List Spread) :
    x.expandCall depth stack (call.withSpreads spreads) = x.expandCall depth stack call := by
  obtain ⟨pos, block, rfl⟩ := exists_owner_of_tag? tag
  obtain ⟨label, attrs, old, selfClosing, isInline⟩ := element
  cases label <;> cases depth <;> rfl

/-- The element that receives the attributes spreads them in the body that is made for a call. -/
theorem exists_spreading_of_instantiate (usage : d.usage.isSome = true)
    (receives : Receives d.usage d.nodes before root element after)
    (h : (x.instantiate d call).result = .ok nodes) :
    ∃ m ∈ nodes, m.tag? = some { element with spreads := [{ val := .str "$attrs", pos := root.pos }] } := by
  obtain ⟨provided, bindings, injected, -, injection, filling⟩ := instantiate_eq_ok h
  obtain ⟨bound, binding, forwarding⟩ := Run.result_bind_eq_ok.1 injection
  obtain ⟨opening, closing, rfl, statements, -⟩ := bindAround_eq_ok binding
  have chosen : forwarded? d.usage d.nodes = some "$attrs" :=
    forwarded?_eq_some_iff.2 ⟨by simp [passedOn, usage], before, root, element, after, receives⟩
  have injected_eq := applyFallthrough_around statements forwarding
  rw [chosen, receives.map_forwardAtRoot] at injected_eq
  have member : root.withSpreads [{ val := .str "$attrs", pos := root.pos }] ∈ injected := by
    simp [injected_eq]
  have notSlot := isSlot_eq_of_label?_eq (root.label?_withSpreads [{ val := .str "$attrs", pos := root.pos }])
  obtain ⟨m, hm, same⟩ := Provided.exists_tag_of_fill filling member (notSlot.trans receives.isSlot_root)
  exact ⟨m, hm, same.trans (tag?_withSpreads receives.tag _)⟩

/-- The element that receives the attributes spreads them in the expanded call, unless it is a call
itself. Such a call is expanded as if it had no spread. -/
theorem passThrough_of_expandCall (called : call.calledName? = some name)
    (found : x.registry.get? name = some d) (usage : d.usage.isSome = true)
    (receives : Receives d.usage d.nodes before root element after)
    (h : (x.expandCall depth stack call).result = .ok out) :
    (root.isCall = false → ∃ m ∈ out,
      m.tag? = some { element with spreads := [{ val := .str "$attrs", pos := root.pos }] }) ∧
    (root.isCall = true → ∃ rest inner part, depth = rest + 1 ∧ inner.tag? = some element ∧
      (x.expandCall rest (stack ++ [name]) inner).result = .ok part ∧ part ⊆ out) := by
  obtain ⟨-, d', nodes, rest, rfl, found', made, run⟩ := expandCall_eq_ok_of_called called h
  obtain rfl : d = d' := Option.some.inj (found.symm.trans found')
  obtain ⟨m, hm, tag⟩ := exists_spreading_of_instantiate usage receives made
  have isCall : m.isCall = root.isCall := by
    refine isCall_eq_of_label?_eq ?_
    simp [label?, tag, receives.tag]
  obtain ⟨parts, related, rfl⟩ := expandBlock_eq_ok run
  obtain ⟨part, hpart, expanded⟩ := exists_of_forall₂_left related hm
  have within : part ⊆ parts.flatten := fun n hn => List.mem_flatten_of_mem hpart hn
  cases expanded with
  | @kept m' notCall expansion =>
    have kept : m'.tag? = m.tag? := tag?_of_expandNode expansion
    refine ⟨fun _ => ⟨m', within (List.mem_singleton_self m'), kept.trans tag⟩, fun rootCall => ?_⟩
    simp [isCall, rootCall] at notCall
  | @called m' _ yes expansion returned =>
    refine ⟨fun notCall => ?_, fun _ => ?_⟩
    · simp [isCall, notCall] at yes
    have tag' := (tag?_of_expandNode expansion).trans tag
    refine ⟨rest, m'.withSpreads [], part, rfl, ?_, ?_, within⟩
    · rw [tag?_withSpreads tag', ← receives.spreads_eq]
    · rwa [expandCall_withSpreads tag']

end Expansion

def labelCall : Node :=
  .owner {} (.tag { label := .str "Outer", attrs := [{ name := .str "class", val := .str "'wide'" }] }) none

def labelPage : Node :=
  block {} [plainTag "component" [plainText "Inner()", plainTag "p" []],
    plainTag "component" [plainText "Outer()", statementNode {} "const \x7b label \x7d = $props",
      plainTag "Inner" []],
    labelCall]

def Node.isCode (n : Node) : Bool :=
  match n with
  | .owner _ (.code ..) _ => true
  | _ => false

def labelAnalysis : Definition.Analysis where
  usage body := .ok (if body.walk.any isCode then some { props := ["label"] } else none)
  scope _ body := .ok (if body.walk.any isCode then
    { declared := ["label"], referenced := ["$props"], props := ["label"] } else {})

def labelExpansion : Expansion where
  registry := (Detection.ofTree {} .empty labelPage labelAnalysis).registry
  config := {}

theorem exists_receives_labelExpansion : ∃ d before root element after,
    labelExpansion.registry.get? "Outer" = some d ∧ d.usage.isSome = true ∧
      Receives d.usage d.nodes before root element after ∧ root.calledName? = some "Inner" := by
  have known : (labelExpansion.registry.get? "Outer").any (fun d => d.usage.isSome &&
      forwarded? d.usage d.nodes == some "$attrs" &&
        d.nodes.all fun n => !n.isRootElement || n.calledName? == some "Inner") = true := by decide +kernel
  rw [Option.any_eq_true] at known
  obtain ⟨d, found, holds⟩ := known
  simp only [Bool.and_eq_true, beq_iff_eq, List.all_eq_true, Bool.or_eq_true, Bool.not_eq_true'] at holds
  obtain ⟨⟨usage, chosen⟩, calls⟩ := holds
  obtain ⟨-, before, root, element, after, receives⟩ := forwarded?_eq_some_iff.1 chosen
  refine ⟨d, before, root, element, after, found, usage, receives, ?_⟩
  exact (calls root receives.root_mem).resolve_left (by simp [receives.isRootElement_root])

theorem exists_expanded_labelCall : ∃ out, (labelExpansion.call [] labelCall).result = .ok out :=
  Outcome.exists_ok_of_isOk (by decide +kernel)

theorem passThrough_labelCall : ∃ out, (labelExpansion.call [] labelCall).result = .ok out ∧
    ∃ rest inner element part, inner.calledName? = some "Inner" ∧ inner.tag? = some element ∧
      element.spreads = [] ∧ (labelExpansion.expandCall rest ["Outer"] inner).result = .ok part ∧
      part ⊆ out := by
  obtain ⟨out, h⟩ := exists_expanded_labelCall
  obtain ⟨d, before, root, element, after, found, usage, receives, called⟩ :=
    exists_receives_labelExpansion
  obtain ⟨rest, inner, part, -, tag, returned, within⟩ :=
    (Expansion.passThrough_of_expandCall (by decide +kernel) found usage receives h).2
      (isCall_of_calledName? called)
  have same : inner.calledName? = root.calledName? := calledName?_eq_of_tag?_eq (tag.trans receives.tag.symm)
  exact ⟨out, h, rest, inner, element, part, same.trans called, tag, receives.spreads_eq, returned, within⟩

/-- The attributes are lost, although the page is well-formed and the component has a root element that
would receive them: no tag spreads `$attrs` where the call stood. -/
theorem lost_labelCall : labelPage.isWellFormed = true ∧ labelCall ∈ labelPage.walk ∧
    (expand {} labelPage labelAnalysis).result.isOk = true ∧
    (∃ d before root element after, labelCall.calledName? = some d.name ∧
      labelExpansion.registry.get? d.name = some d ∧ d.usage.isSome = true ∧
      Receives d.usage d.nodes before root element after) ∧
    ∃ out, (labelExpansion.call [] labelCall).result = .ok out ∧
      ∀ k ∈ out, ∀ n ∈ k.walk, ∀ element, n.tag? = some element →
        ∀ spread ∈ element.spreads, spread.val ≠ .str "$attrs" := by
  refine ⟨by decide +kernel, ?_, by decide +kernel, ?_, ?_⟩
  · simp [labelPage, block, walk, walkAll, self_mem_walk]
  · obtain ⟨d, before, root, element, after, found, usage, receives, -⟩ := exists_receives_labelExpansion
    have named : d.name = "Outer" := Registry.name_of_get? found
    have called : labelCall.calledName? = some "Outer" := by decide +kernel
    exact ⟨d, before, root, element, after, by rw [named, called], by rw [named, found], usage, receives⟩
  · obtain ⟨out, h⟩ := exists_expanded_labelCall
    refine ⟨out, h, ?_⟩
    have quiet : (labelExpansion.call [] labelCall).result.toOption.all (fun out => out.all fun k =>
        k.walk.all fun n => n.tag?.all fun e => e.spreads.all fun s => s.val != .str "$attrs") = true := by
      decide +kernel
    rw [h] at quiet
    intro k hk n hn element tag spread hs val
    simp only [Except.toOption, Option.all_some, List.all_eq_true] at quiet
    have unspread := quiet k hk n hn
    rw [tag, Option.all_some, List.all_eq_true] at unspread
    simpa [Json.beq_str_iff.2 val, bne] using unspread spread hs

end PugComponents

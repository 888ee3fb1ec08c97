import PugComponents.Proofs.Attributes.Thinned
import PugComponents.Proofs.Expansion.Idempotence
import PugComponents.Proofs.Slots.Thinned

/-! Expansion with components from whose bodies definitions were taken out. A call is expanded to the
same nodes up to definitions, and a template to the same tree. The other way round the expansion may
fail for the definitions, unless nothing in them is left to be expanded or filled. -/

namespace PugComponents

open Node Outcome

namespace Node

variable {D : Node → Prop} {strict : Prop} {call call' : Node → Recorded (List Node)} {n n' : Node}

theorem value?_expandOption_eq_mapM (o : Option Node) :
    (expandOption call o).value? = o.mapM fun c => (expandNode call c).value? := by
  cases o with
  | none => simp only [expandOption, Run.value?_pure, Option.mapM_none, Option.pure_def]
  | some c =>
    simp only [expandOption, Run.value?_bind, Run.value?_pure, Option.mapM_some, Option.map_eq_map,
      Option.map_eq_bind]
    rfl

theorem value?_expandFile_eq_rebuild (file : Option Node) :
    (expandFile call file).value? =
      rebuild.rebuildFile (fun c => (expandNode call c).value?) file := by
  cases file with
  | none => simp only [expandFile, Run.value?_pure, rebuild.rebuildFile]
  | some n =>
    cases n with
    | fileReference pos path fullPath ast =>
      simp only [expandFile, rebuild.rebuildFile, Run.value?_bind, Run.value?_pure,
        value?_expandOption_eq_mapM, Option.map_eq_bind]
      rfl
    | _ => simp only [expandFile, rebuild.rebuildFile, Run.value?_fail]

theorem value?_expandNode_eq_rebuild (n : Node) :
    (expandNode call n).value? = rebuild (fun c => (expandNode call c).value?) (expansion call) n := by
  cases n with
  | seq pos head nodes => rw [value?_expandNode_seq, rebuild]
  | leaf | rawInclusion | fileReference => simp only [expandNode, Run.value?_pure, rebuild]
  | owner | fork | inclusion | extension =>
    simp only [expandNode, Run.value?_bind, Run.value?_pure, rebuild, value?_expandOption_eq_mapM,
      value?_expandFile_eq_rebuild, Option.map_eq_bind]
    rfl

/-- Whatever a call is expanded to, some of it is content for the default slot. -/
def Fertile (call : Node → Recorded (List Node)) : Prop :=
  ∀ m part, (call m).value? = some part → part.any isBare = true

theorem isBare_of_isCall (isCall : n.isCall = true) : n.isBare = true := by
  obtain ⟨pos, element, block, rfl⟩ := exists_tag_of_isCall isCall
  rw [isBare, isSlot_eq_false_of_isCall isCall]
  rfl

section Fertile

variable (fertile : Fertile call)
include fertile

theorem any_isBare_of_expansion {part : List Node} (h : expansion call n = some part) :
    part.any isBare = n.isBare := by
  obtain ⟨n', run, replaced⟩ := Option.bind_eq_some_iff.1 h
  have bare_eq := (expandNode_eq_ok (Run.value?_eq_some_iff.1 run)).bare_eq
  obtain ⟨isCall, check, replaced⟩ := Option.bind_eq_some_iff.1 replaced
  have called := isCall_eq_of_callCheck (toOption_eq_some_iff.1 check)
  rw [← isBare_bare, ← bare_eq, isBare_bare]
  cases isCall with
  | true => rw [fertile n' part (by simpa using replaced), isBare_of_isCall called]
  | false =>
    simp only [Bool.false_eq_true, if_false, Option.some.injEq] at replaced
    simp [← replaced]

theorem any_isBare_of_gather {ns out : List Node} (h : gather (expansion call) ns = some out) :
    out.any isBare = ns.any isBare := by
  induction ns generalizing out with
  | nil =>
    cases h
    rfl
  | cons n ns ih =>
    rw [gather_cons] at h
    obtain ⟨front, first, h⟩ := Option.bind_eq_some_iff.1 h
    obtain ⟨back, others, h⟩ := Option.bind_eq_some_iff.1 h
    cases h
    rw [List.any_append, List.any_cons, any_isBare_of_expansion fertile first, ih others]

/-- What stands below a call is expanded before the call, and goes on to count as content. -/
theorem hasBare_of_expandNode {n' : Node} (isCall : n.isCall = true)
    (h : (expandNode call n).value? = some n') : n'.hasBare = n.hasBare := by
  obtain ⟨pos, element, block, rfl⟩ := exists_tag_of_isCall isCall
  rw [value?_expandNode_eq_rebuild, rebuild] at h
  obtain ⟨block', below, rfl⟩ := Option.map_eq_some_iff.1 h
  cases block with
  | none =>
    cases below
    rfl
  | some b =>
    rw [Option.mapM_some] at below
    obtain ⟨b', run, rfl⟩ := Option.map_eq_some_iff.1 below
    have nodes : (b'.nodes?.getD []).any isBare = (b.nodes?.getD []).any isBare := by
      cases b with
      | seq blockPos head nodes =>
        rw [value?_expandNode_seq] at run
        obtain ⟨out, gathered, rfl⟩ := Option.map_eq_some_iff.1 run
        exact any_isBare_of_gather fertile gathered
      | _ =>
        have bare_eq := (expandNode_eq_ok (Run.value?_eq_some_iff.1 run)).bare_eq
        cases b' with
        | seq => cases bare_eq
        | _ => rfl
    simp [hasBare, children, nodes]

end Fertile

/-- A thinned tree is expanded to a thinned tree, if calls are. -/
theorem follows_expansion (fertile : Fertile call) (fertile' : Fertile call')
    (calls : ∀ m m', m.isCall = true → Thinned D m m' →
      Follows strict (Thins D) (call m).value? (call' m').value?)
    (drop : ∀ c, D c → Follows strict (Thins D) (expansion call c) (some [])) (n : Node) :
    (∀ n', Thinned D n n' →
      Follows strict (Thinned D) (expandNode call n).value? (expandNode call' n').value?) ∧
    ∀ part, Remnant D n part →
      Follows strict (Thins D) (expansion call n) (gather (expansion call') part) := by
  induction n using childInduction with
  | step n ih =>
    have expanded : ∀ n', Thinned D n n' →
        Follows strict (Thinned D) (expandNode call n).value? (expandNode call' n').value? := by
      intro n' thinned
      have rebuilt := follows_rebuild thinned.built (fun c hc => (ih c hc).1) fun c hc => (ih c hc).2
      rw [← value?_expandNode_eq_rebuild, ← value?_expandNode_eq_rebuild] at rebuilt
      refine rebuilt.yielded.imp fun m m' ⟨run, run', built⟩ => .mk built fun isCall => ?_
      have isCall : n.isCall = true :=
        isCall_eq_of_tag?_eq (tag?_of_expandNode (Run.value?_eq_some_iff.1 run)) ▸ isCall
      have isCall' : n'.isCall = true := isCall_eq_of_tag?_eq thinned.tag?_eq ▸ isCall
      rw [hasBare_of_expandNode fertile isCall run, hasBare_of_expandNode fertile' isCall' run',
        thinned.content isCall]
    refine ⟨expanded, fun part remnant => ?_⟩
    cases remnant with
    | dropped idle => exact drop n idle
    | @kept _ n' thinned =>
      rw [gather_singleton]
      refine (expanded n' thinned).bind fun m m' thinned => ?_
      rw [replacement, replacement, callCheck_eq_of_tag?_eq thinned.tag?_eq]
      cases check : m.callCheck with
      | error e => exact .none
      | ok isCall =>
        cases isCall with
        | true => exact calls m m' (isCall_eq_of_callCheck check) thinned
        | false => exact .some (.single (.kept thinned))

/-- What is done to a definition in a block leaves a definition, which may be taken out of what the
block becomes; in the strict sense it leaves the definition itself. -/
theorem follows_nil_of_idle {o : Option (List Node)} (idle : n.Idle strict)
    (stays : ∀ part, o = some part → ∃ n', part = [n'] ∧ n'.tag? = n.tag?)
    (same : strict → o = some [n]) : Follows strict (Thins (Idle strict)) o (some []) := by
  constructor
  · intro part h
    obtain ⟨n', rfl, tag⟩ := stays part h
    refine ⟨[], rfl, .single (.dropped ⟨isDefinition_eq_of_tag?_eq tag ▸ idle.1, fun isStrict => ?_⟩)⟩
    rw [same isStrict, Option.some.injEq, List.cons.injEq] at h
    exact h.1 ▸ idle.2 isStrict
  · rintro isStrict _ ⟨rfl⟩
    exact ⟨[n], same isStrict, .single (.dropped idle)⟩

theorem follows_filling?_of_idle {r : Reporter} {given : Filling} (idle : n.Idle strict) :
    Follows strict (Thins (Idle strict)) (filling? r given n) (some []) := by
  refine follows_nil_of_idle idle (fun part h => ?_) fun isStrict => ?_
  · rw [filling?_of_notSlot (isSlot_eq_false_of_isDefinition idle.1)] at h
    obtain ⟨n', run, rfl⟩ := Option.map_eq_some_iff.1 h
    exact ⟨n', rfl, tag?_eq_of_bare_eq (bare_of_fillNode (toOption_eq_some_iff.1 run))⟩
  · obtain ⟨wf, slotless, -⟩ := idle.2 isStrict
    rw [filling?, toOption_eq_some_iff]
    refine fillNodes_eq_self (List.forall_mem_singleton.2 wf) (List.forall_mem_singleton.2 ?_)
    exact fun m hm => slotless m (mem_walk_of_mem_walkUntil hm)

theorem follows_expansion_of_idle (idle : n.Idle strict) :
    Follows strict (Thins (Idle strict)) (expansion call n) (some []) := by
  refine follows_nil_of_idle idle (fun part h => ?_) fun isStrict => ?_
  · obtain ⟨n', run, replaced⟩ := Option.bind_eq_some_iff.1 h
    have tag := tag?_of_expandNode (Run.value?_eq_some_iff.1 run)
    rw [replacement_of_isDefinition (isDefinition_eq_of_tag?_eq tag ▸ idle.1)] at replaced
    cases replaced
    exact ⟨n', rfl, tag⟩
  · obtain ⟨wf, -, callFree⟩ := idle.2 isStrict
    have stays : (expandNode call n).result = .ok n :=
      expandNode_eq_self wf fun c hc => callFree.of_mem_children hc
    rw [expansion, Run.value?_eq_some_iff.2 stays, Option.bind_some, replacement_of_isDefinition idle.1]

end Node

/-- What expansion uses of a definition, before and after definitions were taken out of its body. -/
structure Definition.ThinsTo (strict : Prop) (d d' : Definition) : Prop where
  name : d'.name = d.name
  slotNames : d'.slotNames = d.slotNames
  usage : d'.usage = d.usage
  filed : ∀ n ∈ d.nodes ++ d'.nodes, n.Lacks isMisfiled
  nodes : Thins (Idle strict) (d.nodes.map (forwardAtRoot (forwarded? d.usage d.nodes)))
    (d'.nodes.map (forwardAtRoot (forwarded? d'.usage d'.nodes)))

theorem Definition.ThinsTo.refl {strict : Prop} {d : Definition} (filed : ∀ n ∈ d.nodes, n.Lacks isMisfiled) :
    d.ThinsTo strict d := by
  refine ⟨rfl, rfl, rfl, by simpa using filed, Thins.forwardAtRoot (.refl filed) fun n _ => rfl⟩

def Registry.ThinsTo (strict : Prop) (reg reg' : Registry) : Prop :=
  ∀ name, Option.Rel (Definition.ThinsTo strict) (reg.get? name) (reg'.get? name)

theorem value?_injectAttributes {component : String} {usage : Option Usage} {b : Bindings}
    {pos : Position} {nodes : List Node} (filed : ∀ n ∈ nodes, n.Lacks isMisfiled) :
    (injectAttributes component usage b pos nodes).value? = (b.frame usage pos).toOption.map fun p =>
      p.1 ++ nodes.map (forwardAtRoot (forwarded? usage nodes)) ++ p.2 := by
  rw [injectAttributes, Run.value?_bind, Run.value?_lift, bindAround_eq, toOption_bind]
  cases framed : b.frame usage pos with
  | error e => rfl
  | ok p =>
    obtain ⟨opening, closing⟩ := p
    have statements := (frame_eq_ok framed).1
    have whole : ∀ n ∈ opening ++ nodes ++ closing, n.Lacks isMisfiled := by
      intro n hn
      rcases mem_around.1 hn with hn | hn
      · exact (statements n hn).lacks_isMisfiled
      · exact filed n hn
    obtain ⟨out, forwarding⟩ : ∃ out,
        (applyFallthrough component usage (opening ++ nodes ++ closing)).result = .ok out :=
      (sure_applyFallthrough whole).exists_ok
    have eq := Run.value?_eq_some_iff.2 forwarding
    rw [applyFallthrough_around statements forwarding] at eq
    simpa using eq

theorem Node.attrs?_bare (n : Node) : n.bare.attrs? = n.attrs? := by
  cases n with
  | owner pos head block => cases head <;> rfl
  | _ => rfl

namespace Expansion

variable {strict : Prop} {config : Config} {reg reg' : Registry} {d d' : Definition}

theorem follows_instantiate (h : d.ThinsTo strict d') {call call' : Node} (isCall : call.isCall = true)
    (thinned : Thinned (Idle strict) call call') :
    Follows strict (Thins (Idle strict)) ((Expansion.mk reg config).instantiate d call).value?
      ((Expansion.mk reg' config).instantiate d' call').value? := by
  have attrs : call'.attrs? = call.attrs? := by
    rw [← attrs?_bare, thinned.bare_eq, attrs?_bare]
  have pos : call'.pos = call.pos := by
    rw [← pos_bare, thinned.bare_eq, pos_bare]
  have given := Provided.ofCall_rel (r := config.reporter) (fun n idle => idle.1) isCall thinned
  obtain ⟨here, there⟩ := List.forall_mem_append.1 h.filed
  rw [instantiate, instantiate, Run.value?_bind, Run.value?_bind, Run.value?_lift, Run.value?_lift]
  refine (Follows.of_rel given).bind fun p p' provides => ?_
  rw [attrs, pos]
  cases call.attrs? with
  | none => exact .none
  | some attrs =>
    simp only [Run.value?_bind, value?_injectAttributes here, value?_injectAttributes there, h.usage,
      h.slotNames, Run.value?_lift]
    refine (Follows.refl _).bind ?_
    rintro bindings _ rfl
    rw [← provides.toOption_check d.slotNames call.location call'.location, Option.bind_map,
      Option.bind_map]
    refine (Follows.refl _).yielded.bind ?_
    rintro ⟨opening, closing⟩ _ ⟨framed, -, rfl⟩
    have statements := (frame_eq_ok (toOption_eq_some_iff.1 framed)).1
    have same : ∀ ns ⊆ opening ++ closing, Thins (Idle strict) ns ns :=
      fun ns sub => .refl fun m hm => (statements m (sub hm)).lacks_isMisfiled
    refine (Follows.refl _).bind fun _ _ _ => ?_
    refine provides.follows_fill (fun _ _ => follows_filling?_of_idle) ?_
    exact ((same opening (List.subset_append_left _ _)).append (h.usage ▸ h.nodes)).append
      (same closing (List.subset_append_right _ _))

theorem fertile_expandCall (x : Expansion) (depth : Nat) (stack : List String) :
    Fertile (x.expandCall depth stack) := by
  intro m part h
  have run := Run.value?_eq_some_iff.1 h
  obtain ⟨d, -, -, -, found, -⟩ := expandCall_eq_ok run
  obtain ⟨opening, inner, closing, rfl, -, both, one⟩ := around_of_expandCall found run
  have first : opening.any isBare = true := by
    cases keys : d.usage with
    | none =>
      obtain ⟨_, rfl, -⟩ := one keys
      rfl
    | some usage =>
      obtain ⟨_, _, _, _, ⟨_, rfl⟩, -, rfl, -⟩ := both (by rw [keys]; rfl)
      rfl
  rw [List.any_append, List.any_append, first]
  rfl

theorem follows_target (related : reg.ThinsTo strict reg') (stack : List String) {call call' : Node}
    (isCall : call.isCall = true) (thinned : Thinned (Idle strict) call call') :
    Follows strict (Definition.ThinsTo strict) ((Expansion.mk reg config).target stack call).toOption
      ((Expansion.mk reg' config).target stack call').toOption := by
  have named : call'.targetName = call.targetName := by
    obtain ⟨name, called⟩ := exists_calledName? isCall
    have called' : call'.calledName? = some name :=
      (calledName?_eq_of_tag?_eq thinned.tag?_eq).trans called
    rw [targetName_of_calledName? called, targetName_of_calledName? called']
  refine .of_rel (target_rel ?_ stack named)
  exact related

theorem follows_expandCall (related : reg.ThinsTo strict reg') (depth : Nat) (stack : List String)
    {call call' : Node} (isCall : call.isCall = true) (thinned : Thinned (Idle strict) call call') :
    Follows strict (Thins (Idle strict)) ((Expansion.mk reg config).expandCall depth stack call).value?
      ((Expansion.mk reg' config).expandCall depth stack call').value? := by
  induction depth generalizing stack call call' with
  | zero =>
    rw [expandCall, expandCall, Run.value?_bind, Run.value?_bind]
    refine (follows_target related stack isCall thinned).bind fun d d' same => ?_
    simp only [Run.value?_bind, value?_announce, Option.bind_some, Run.value?_fail]
    exact (follows_instantiate same isCall thinned).bind fun _ _ _ => .none
  | succ depth ih =>
    rw [expandCall, expandCall, Run.value?_bind, Run.value?_bind]
    refine (follows_target related stack isCall thinned).bind fun d d' same => ?_
    simp only [Run.value?_bind, value?_announce, Option.bind_some, same.name,
      value?_expandBlock_eq_gather]
    refine (follows_instantiate same isCall thinned).bind fun nodes nodes' thins => ?_
    refine follows_gather thins fun n _ => ?_
    refine (follows_expansion (fertile_expandCall _ _ _) (fertile_expandCall _ _ _) ?_
      (fun _ => follows_expansion_of_idle) n).2
    exact fun _ _ => ih (stack ++ [d.name])

theorem follows_tree (related : reg.ThinsTo strict reg') {n n' : Node}
    (thinned : Thinned (Idle strict) n n') :
    Follows strict (Thinned (Idle strict)) ((Expansion.mk reg config).tree [] n).value?
      ((Expansion.mk reg' config).tree [] n').value? :=
  (follows_expansion (fertile_expandCall _ _ _) (fertile_expandCall _ _ _)
    (fun _ _ => follows_expandCall related _ _) (fun _ => follows_expansion_of_idle) n).1 n' thinned

end Expansion

theorem follows_finish {strict : Prop} {config : Config} {reg reg' : Registry}
    (related : reg.ThinsTo strict reg') {n n' : Node} (thinned : Thinned (Idle strict) n n') :
    Follows strict Eq (Session.finish config reg n).value? (Session.finish config reg' n').value? := by
  simp only [Session.finish, Run.value?_bind, Run.value?_lift]
  refine (Expansion.follows_tree related thinned).bind fun m m' thinned => ?_
  rw [removeDefinitions, removeDefinitions, withoutDefinitions_of_thinned (fun n idle => idle.1) thinned]
  exact .refl _

end PugComponents

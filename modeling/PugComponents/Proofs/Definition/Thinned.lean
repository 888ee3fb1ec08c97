import PugComponents.Proofs.Definition.Slots
import PugComponents.Proofs.Expansion.Thinned

/-! Definitions that are read off thinned tags. The name, the slots and the nodes of a component stay, up
to what was taken out of its body, if no slot was taken out with it and if the analysis of the script
and the choice of the root element come out the same. -/

namespace PugComponents

open Node Outcome

namespace Node

section Slots

variable {D : Node → Prop} {n n' : Node}

/-- Two steps from nodes that differ in their children only, into the same part. -/
def SameStep (step step' : Step) : Prop := step'.1.bare = step.1.bare ∧ step'.2 = step.2

/-- Two slots with the same head, on routes of the same steps. -/
structure SamePlace (found found' : Route × Node) : Prop where
  route : List.Forall₂ SameStep found.1 found'.1
  slot : found'.2.bare = found.2.bare

theorem isConditional_eq_of_bare_eq (h : n'.bare = n.bare) : n'.isConditional = n.isConditional := by
  rw [← isConditional_bare, h, isConditional_bare]

theorem goesOnChain_eq {step step' : Step} {rest rest' : Route} (same : SameStep step step')
    (others : List.Forall₂ SameStep rest rest') : goesOnChain step' rest' = goesOnChain step rest := by
  obtain ⟨n, b⟩ := step
  obtain ⟨n', b'⟩ := step'
  obtain ⟨bare_eq, rfl⟩ := same
  cases others with
  | nil => cases b' <;> rfl
  | cons next _ =>
    cases b' with
    | alternate =>
      simp only [goesOnChain, isConditional_eq_of_bare_eq bare_eq, isConditional_eq_of_bare_eq next.1]
    | _ => rfl

theorem marker?_bare (index : Nat) (n : Node) (b : Branch) :
    marker? index (n.bare, b) = marker? index (n, b) := by
  cases n with
  | owner pos head block => cases head <;> rfl
  | fork pos head main alternate => cases head <;> cases b <;> rfl
  | _ => rfl

theorem marker?_eq {index : Nat} {step step' : Step} (same : SameStep step step') :
    marker? index step' = marker? index step := by
  obtain ⟨n, b⟩ := step
  obtain ⟨n', b'⟩ := step'
  obtain ⟨bare_eq, rfl⟩ := same
  rw [← marker?_bare, bare_eq, marker?_bare]

theorem markers_eq {route route' : Route} (same : List.Forall₂ SameStep route route') (index : Nat) :
    markers index route' = markers index route := by
  induction same generalizing index with
  | nil => rfl
  | cons first others ih =>
    rw [markers, markers, goesOnChain_eq first others, marker?_eq first, ih, ih]

def slotRoutesInto (step : Step) (cs : List Node) : List (Route × Node) :=
  cs.flatMap fun c => c.slotRoutes.map (under step)

theorem slotRoutes_eq_into (n : Node) :
    n.slotRoutes = (if n.isSlot then [([], n)] else []) ++ if n.isCall then [] else
      match n with
      | .fork _ _ main alternate => slotRoutesInto (n, .main) main.toList ++
          slotRoutesInto (n, .alternate) alternate.toList
      | n => slotRoutesInto (n, .below) n.children := by
  rw [slotRoutes_eq]
  cases n <;> simp [branches, slotRoutesInto, List.flatMap_map, List.flatMap_append]

theorem samePlace_map_under {step step' : Step} (same : SameStep step step')
    {found found' : List (Route × Node)} (h : List.Forall₂ SamePlace found found') :
    List.Forall₂ SamePlace (found.map (under step)) (found'.map (under step')) := by
  rw [List.forall₂_map_left_iff, List.forall₂_map_right_iff]
  exact h.imp fun _ _ place => ⟨.cons same place.route, place.slot⟩

theorem slotRoutes_eq_nil (slotFree : n.SlotFree) : n.slotRoutes = [] := by
  have none : (n.walkUntil isCall).filter isSlot = [] := by
    rw [List.filter_eq_nil_iff]
    intro m hm
    simp [slotFree m hm]
  rwa [← map_snd_slotRoutes, List.map_eq_nil_iff] at none

variable (slotFree : ∀ m, D m → m.SlotFree)
include slotFree

theorem samePlace_slotRoutesInto {step step' : Step} (same : SameStep step step') {cs cs' : List Node}
    (h : Thins D cs cs')
    (each : ∀ c ∈ cs, ∀ c', Thinned D c c' → List.Forall₂ SamePlace c.slotRoutes c'.slotRoutes) :
    List.Forall₂ SamePlace (slotRoutesInto step cs) (slotRoutesInto step' cs') := by
  obtain ⟨parts, related, rfl⟩ := h
  induction related with
  | nil => exact .nil
  | cons first _ ih =>
    rw [List.forall_mem_cons] at each
    rw [slotRoutesInto, slotRoutesInto, List.flatMap_cons, List.flatten_cons, List.flatMap_append]
    refine List.rel_append ?_ (ih each.2)
    cases first with
    | dropped out => simp [slotRoutes_eq_nil (slotFree _ out)]
    | kept thinned => simpa using samePlace_map_under same (each.1 _ thinned)

theorem samePlace_slotRoutes (h : Thinned D n n') :
    List.Forall₂ SamePlace n.slotRoutes n'.slotRoutes := by
  induction n using childInduction generalizing n' with
  | step n ih =>
    have step : ∀ b : Branch, SameStep (n, b) (n', b) := fun b => ⟨h.bare_eq, rfl⟩
    have into : ∀ b cs cs', cs ⊆ n.children → Thins D cs cs' →
        List.Forall₂ SamePlace (slotRoutesInto (n, b) cs) (slotRoutesInto (n', b) cs') :=
      fun b cs cs' sub thins =>
        samePlace_slotRoutesInto slotFree (step b) thins fun c hc c' => ih c (sub hc)
    rw [slotRoutes_eq_into, slotRoutes_eq_into n', isSlot_eq_of_tag?_eq h.tag?_eq,
      isCall_eq_of_tag?_eq h.tag?_eq]
    refine List.rel_append ?_ ?_
    · cases n.isSlot with
      | true => exact .cons ⟨.nil, h.bare_eq⟩ .nil
      | false => exact .nil
    · cases n.isCall with
      | true => exact .nil
      | false =>
        simp only [Bool.false_eq_true, if_false]
        cases h.built with
        | leaf | rawInclusion | fileReference => exact .nil
        | seq pos head pieces => exact into _ _ _ (List.Subset.refl _) ⟨_, pieces, rfl⟩
        | owner pos head child => exact into _ _ _ (List.Subset.refl _) (.of_rel child)
        | fork pos head first second =>
          exact List.rel_append (into _ _ _ (List.subset_append_left _ _) (.of_rel first))
            (into _ _ _ (List.subset_append_right _ _) (.of_rel second))
        | inclusion pos block tree => exact into _ _ _ (List.Subset.refl _) (.of_rebuiltFile tree)
        | extension pos tree => exact into _ _ _ (List.Subset.refl _) (.of_rebuiltFile tree)

end Slots

section Surveys

variable {D : Node → Prop} {n n' : Node} {α : Type} {f : Node → Except Failure (List α)}

theorem contribution_eq (byHead : ∀ m, f m.bare = f m) (h : n'.bare = n.bare) :
    contribution f n' = contribution f n := by
  have misfiled : ∀ m : Node, m.bare.isMisfiled = m.isMisfiled := by
    intro m
    cases m with
    | inclusion pos file | extension pos file =>
      cases file with
      | none => rfl
      | some c => cases c <;> rfl
    | _ => rfl
  rw [contribution, contribution, ← byHead, ← misfiled, h, byHead, misfiled]

def surveyAll (f : Node → Except Failure (List α)) (ns : List Node) : Except Failure (List α) := do
  let found ← (ns.flatMap walk).mapM (contribution f)
  return found.flatten

theorem surveyAll_cons (m : Node) (ms : List Node) : surveyAll f (m :: ms) = do
    let first ← m.survey f
    let others ← surveyAll f ms
    return first ++ others := by
  simp [surveyAll, survey, List.mapM_append]

theorem survey_eq (m : Node) : m.survey f = do
    let own ← contribution f m
    let below ← surveyAll f m.children
    return own ++ below := by
  simp [surveyAll, survey, walk_eq m]

theorem surveyAll_eq_of_thins (silent : ∀ m, D m → m.survey f = .ok []) {cs cs' : List Node}
    (h : Thins D cs cs') (each : ∀ c ∈ cs, ∀ c', Thinned D c c' → c'.survey f = c.survey f) :
    surveyAll f cs' = surveyAll f cs := by
  obtain ⟨parts, related, rfl⟩ := h
  induction related with
  | nil => rfl
  | @cons c part cs parts first _ ih =>
    rw [List.forall_mem_cons] at each
    rw [List.flatten_cons, surveyAll_cons, ← ih each.2]
    cases first with
    | dropped out =>
      rw [silent c out, List.nil_append]
      exact (bind_pure _).symm
    | kept thinned => rw [List.singleton_append, surveyAll_cons, each.1 _ thinned]

theorem survey_eq_of_thinned (byHead : ∀ m, f m.bare = f m) (silent : ∀ m, D m → m.survey f = .ok [])
    (h : Thinned D n n') : n'.survey f = n.survey f := by
  induction n using childInduction generalizing n' with
  | step n ih =>
    rw [survey_eq, survey_eq n, contribution_eq byHead h.bare_eq,
      surveyAll_eq_of_thins silent h.thins_children fun c hc c' => ih c hc]

end Surveys

end Node

namespace Definition

variable {D : Node → Prop} {strict : Prop} {r : Reporter}

section Header

theorem isText_eq_of_bare_eq {n n' : Node} (h : n'.bare = n.bare) : isText n' = isText n := by
  have byHead : ∀ m : Node, isText m.bare = isText m := by
    intro m
    cases m <;> rfl
  rw [← byHead, h, byHead]

variable (definitions : ∀ n, D n → n.isDefinition = true)
include definitions

theorem isText_eq_false {n : Node} (out : D n) : isText n = false := by
  obtain ⟨pos, element, block, rfl, -⟩ := exists_tag_of_isTagNamed (definitions n out)
  rfl

theorem find?_isText_of_thins {ns ns' : List Node} (h : Thins D ns ns') :
    ns'.find? isText = ns.find? isText := by
  obtain ⟨parts, related, rfl⟩ := h
  induction related with
  | nil => rfl
  | @cons n part ns parts first _ ih =>
    rw [List.flatten_cons, List.find?_append, ih]
    cases first with
    | dropped out => simp [isText_eq_false definitions out]
    | @kept _ n' thinned =>
      have text := isText_eq_of_bare_eq thinned.bare_eq
      cases isHeader : isText n with
      | false => simp [isHeader, text]
      | true =>
        have same : n' = n := by
          cases thinned.built with
          | leaf => rfl
          | _ => cases isHeader
        simp [same, isHeader]

theorem thins_withoutName {ns ns' : List Node} (h : Thins D ns ns') :
    Thins D (withoutName ns) (withoutName ns') := by
  obtain ⟨parts, related, rfl⟩ := h
  induction related with
  | nil => exact .nil
  | @cons n part ns parts first others ih =>
    rw [withoutName, List.flatten_cons]
    cases first with
    | dropped out =>
      rw [isText_eq_false definitions out]
      exact (Thins.single (.dropped out)).append ih
    | @kept _ n' thinned =>
      rw [List.singleton_append, withoutName, isText_eq_of_bare_eq thinned.bare_eq]
      cases isText n with
      | true => exact ⟨parts, others, rfl⟩
      | false => exact (Thins.single (.kept thinned)).append ih

end Header

theorem rel_slotOf {f f' : Route × Node} (place : SamePlace f f') :
    Option.Rel (fun slot slot' => key slot' = key slot) (slotOf r ⟨f.2, markers 0 f.1⟩).toOption
      (slotOf r ⟨f'.2, markers 0 f'.1⟩).toOption := by
  rw [slotOf, slotOf, slotName_eq_of_bare_eq place.slot]
  cases f.2.slotName r with
  | error e => exact .none
  | ok name =>
    refine .some ?_
    simp only [key, Placeholder.label, markers_eq place.route]

theorem rel_collectSlots {found found' : List (Route × Node)}
    (same : List.Forall₂ SamePlace found found') {seen seen' : List SlotDefinition}
    (keys : seen'.map key = seen.map key) :
    Option.Rel (fun slots slots' => slots'.map key = slots.map key)
      (collectSlots r seen (found.map visitOf)).toOption
      (collectSlots r seen' (found'.map visitOf)).toOption := by
  induction same generalizing seen seen' with
  | nil => exact .some keys
  | @cons f f' found found' place _ ih =>
    simp only [List.map_cons, visitOf, collectSlots, toOption_bind]
    have made := rel_slotOf (r := r) place
    generalize (slotOf r ⟨f.2, markers 0 f.1⟩).toOption = o at made ⊢
    generalize (slotOf r ⟨f'.2, markers 0 f'.1⟩).toOption = o' at made ⊢
    cases made with
    | none => exact .none
    | @some slot slot' sameKey =>
      have fresh : (seen'.find? fun s => s.name == slot'.name && s.path == slot'.path) = none ↔
          (seen.find? fun s => s.name == slot.name && s.path == slot.path) = none := by
        rw [find?_eq_none_iff_key, find?_eq_none_iff_key, keys, sameKey]
      simp only [Option.bind_some]
      cases taken : seen.find? fun s => s.name == slot.name && s.path == slot.path with
      | none =>
        rw [fresh.2 taken]
        exact ih (by simp [keys, sameKey])
      | some previous =>
        rw [← not_iff_not, taken] at fresh
        obtain ⟨previous', taken'⟩ := Option.ne_none_iff_exists'.1 (fresh.2 (by simp))
        rw [taken']
        exact .none

theorem names_eq_of_keys {slots slots' : List SlotDefinition} (keys : slots'.map key = slots.map key) :
    (firstOfName slots').map (·.name) = (firstOfName slots).map (·.name) := by
  have names : ∀ ss : List SlotDefinition, ss.map (·.name) = (ss.map key).map Prod.fst := by
    intro ss
    rw [List.map_map]
    rfl
  rw [map_name_firstOfName, map_name_firstOfName, names, keys, names]

section Body

variable {usage : Option Usage} {names : List String} {ns ns' : List Node}

/-- How a node of a body is written once it is known which names are derived. -/
def spell (usage : Option Usage) (names : List String) : Node → Node :=
  if usage.isSome && !names.isEmpty then mapOwners (Owner.unescape names) else id

theorem unescaped_eq {scope : Scope} {pos : Position} (wf : (block pos ns).isWellFormed = true) :
    unescaped usage scope (block pos ns) = .ok (ns.map (spell usage scope.derived)) := by
  obtain ⟨out, run⟩ := (sure_unescaped wf usage scope).exists_ok
  rw [run]
  cases usage with
  | none => simpa [unescaped, spell, eq_comm] using run
  | some usage =>
    simp only [unescaped, bind_eq_ok, pure_eq_ok] at run
    obtain ⟨⟨count, body⟩, run, rfl⟩ := run
    unfold unescape at run
    cases none : scope.derived.isEmpty with
    | true =>
      rw [if_pos none, Except.ok.injEq, Prod.mk.injEq] at run
      simp [spell, none, ← run.2]
    | false =>
      simp only [none, Bool.false_eq_true, if_false, bind_eq_ok, pure_eq_ok, Prod.mk.injEq] at run
      obtain ⟨changed, -, -, rfl⟩ := run
      simp [spell, none, block, mapOwners, nodes?, mapOwnersAll_eq_map]

theorem thins_spell (h : Thins (Idle strict) ns ns') :
    Thins (Idle strict) (ns.map (spell usage names)) (ns'.map (spell usage names)) := by
  unfold spell
  split
  · exact h.unescape
  · simpa using h

theorem isWellFormed_spell {n : Node} (wf : n.isWellFormed = true) :
    (spell usage names n).isWellFormed = true := by
  unfold spell
  split
  · exact isWellFormed_unescape wf
  · exact wf

theorem isRootElement_unescape (n : Node) :
    (n.mapOwners (Owner.unescape names)).isRootElement = n.isRootElement := by
  have isTag : (n.mapOwners (Owner.unescape names)).tag?.isSome = n.tag?.isSome := by
    have label : (n.mapOwners (Owner.unescape names)).label?.isSome = n.label?.isSome :=
      congrArg _ (label?_unescape n)
    simpa [label?] using label
  rw [isRootElement, isRootElement, isTag, isSlot_eq_of_label?_eq (label?_unescape n)]

theorem isSpreading_unescape (n : Node) :
    (n.mapOwners (Owner.unescape names)).isSpreading = n.isSpreading := by
  cases n with
  | owner pos head block =>
    rw [mapOwners]
    cases head <;> rfl
  | _ => simp [mapOwners, isSpreading, tag?]

theorem setsAny_unescape (keys : List String) (n : Node) :
    (n.mapOwners (Owner.unescape names)).setsAny keys = n.setsAny keys := by
  have same : ∀ a : Attribute, (a.unescape names).name = a.name := by
    intro a
    unfold Attribute.unescape
    split <;> rfl
  cases n with
  | owner pos head block =>
    rw [mapOwners]
    cases head with
    | tag element => simp [setsAny, attrs?, Owner.unescape, List.any_map, Function.comp_def, same]
    | _ => rfl
  | _ => simp [mapOwners, setsAny, attrs?]

theorem forwarded?_unescape :
    forwarded? usage (ns.map (mapOwners (Owner.unescape names))) = forwarded? usage ns := by
  have roots : (ns.map (mapOwners (Owner.unescape names))).filter isRootElement =
      (ns.filter isRootElement).map (mapOwners (Owner.unescape names)) := by
    rw [List.filter_map]
    exact congrArg _ (congrArg (List.filter · ns) (funext isRootElement_unescape))
  have receives : ∀ root : Node, forwardedFor? usage (root.mapOwners (Owner.unescape names)) =
      forwardedFor? usage root := by
    intro root
    cases usage with
    | none => rfl
    | some usage => rw [forwardedFor?, forwardedFor?, setsAny_unescape]
  simp only [forwarded?, List.any_map, Function.comp_def, walk_mapOwners, isSpreading_unescape, roots]
  split
  · rfl
  · cases ns.filter isRootElement with
    | nil => rfl
    | cons root others =>
      cases others with
      | nil => exact receives root
      | cons => rfl

theorem isRootElement_spell (n : Node) : (spell usage names n).isRootElement = n.isRootElement := by
  unfold spell
  split
  · exact isRootElement_unescape n
  · rfl

theorem forwarded?_spell (keys : Option Usage) :
    forwarded? keys (ns.map (spell usage names)) = forwarded? keys ns := by
  unfold spell
  split
  · exact forwarded?_unescape
  · rw [List.map_id]

end Body

/-- Nothing that the definition is read for tells whether nodes were taken out of its body: the analysis of
the script comes out the same, and the same is forwarded to an element at the top of what is left. -/
structure Unseen (analysis : Analysis) (config : Config) (tag tag' : Node) : Prop where
  usage : analysis.usage tag'.declaredBody = analysis.usage tag.declaredBody
  scope : (analysis.scope config.allowedGlobals tag'.declaredBody).map (fun s => (s.derived, s.external)) =
    (analysis.scope config.allowedGlobals tag.declaredBody).map fun s => (s.derived, s.external)
  forwards : ∀ usage, analysis.usage tag.declaredBody = .ok usage →
    tag'.declaredBody.children.any isRootElement = true →
      forwarded? usage tag'.declaredBody.children = forwarded? usage tag.declaredBody.children

section Reading

variable {tag tag' : Node} {analysis : Analysis} {config : Config}

theorem nodesBelow_of_thinned (wf : tag.isWellFormed = true) (isDefinition : tag.isDefinition = true)
    (thinned : Thinned D tag tag') :
    ∃ ns ns', nodesBelow tag = .ok ns ∧ nodesBelow tag' = .ok ns' ∧ Thins D ns ns' := by
  obtain ⟨pos, element, block, rfl, -⟩ := exists_tag_of_isTagNamed isDefinition
  cases thinned.built with
  | owner _ _ child =>
    cases child with
    | none => exact ⟨[], [], rfl, rfl, .nil⟩
    | @some b b' related =>
      have isBlock := ((isWellFormed_owner.1 wf).2.2.2 b rfl).1
      cases related.built with
      | seq blockPos head pieces => exact ⟨_, _, rfl, rfl, _, pieces, rfl⟩
      | _ => cases isBlock

theorem declaredBody_eq {ns : List Node} (below : nodesBelow tag = .ok ns) :
    tag.declaredBody = block tag.pos (withoutName ns) := by
  rw [declaredBody, below]
  rfl

theorem isWellFormed_declaredBody (wf : tag.isWellFormed = true) (isDefinition : tag.isDefinition = true)
    {ns : List Node} (below : nodesBelow tag = .ok ns) : tag.declaredBody.isWellFormed = true := by
  rw [declaredBody_eq below]
  exact isWellFormed_block (isTyped_pos wf) fun n hn =>
    isWellFormed_of_nodesBelow wf isDefinition below n (mem_of_mem_withoutName hn)

theorem value?_ofNode {ns : List Node} (below : nodesBelow tag = .ok ns)
    (wf : tag.declaredBody.isWellFormed = true) :
    (ofNode config tag analysis).value? =
      let r := config.reporter
      let location := tag.location.withFilename r.filename
      (readName r location ns).toOption.bind fun name =>
        (collectSlots r [] (tag.declaredBody.slotRoutes.map visitOf)).toOption.bind fun slots =>
          (analysis.usage tag.declaredBody).toOption.bind fun usage =>
            (analysis.scope config.allowedGlobals tag.declaredBody).toOption.bind fun scope =>
              (checkScope r config.mode name location scope.external).value?.map fun _ =>
                { name := name, pos := tag.pos
                  nodes := tag.declaredBody.children.map (spell usage scope.derived)
                  slots := firstOfName slots, usage := usage, scope := scope, location := location } := by
  have written : ∀ usage scope, (unescaped usage scope tag.declaredBody).toOption =
      some (tag.declaredBody.children.map (spell usage scope.derived)) := by
    intro usage scope
    rw [toOption_eq_some_iff]
    exact unescaped_eq wf
  simp only [ofNode, ofNodes, Run.value?_bind, Run.value?_lift, Run.value?_pure, below, toOption_ok,
    Option.bind_some, ← declaredBody_eq below, placeholders_eq_visits wf, written, Option.map_eq_bind]
  rfl

theorem Unseen.follows_scope (unseen : Unseen analysis config tag tag') :
    Follows strict (fun s s' : Scope => s'.derived = s.derived ∧ s'.external = s.external)
      (analysis.scope config.allowedGlobals tag.declaredBody).toOption
      (analysis.scope config.allowedGlobals tag'.declaredBody).toOption := by
  have same := unseen.scope
  cases here : analysis.scope config.allowedGlobals tag.declaredBody with
  | error e =>
    cases there : analysis.scope config.allowedGlobals tag'.declaredBody with
    | error e' => exact .none
    | ok s' => simp [here, there, Except.map] at same
  | ok s =>
    cases there : analysis.scope config.allowedGlobals tag'.declaredBody with
    | error e' => simp [here, there, Except.map] at same
    | ok s' =>
      simp only [here, there, Except.map, Except.ok.injEq, Prod.mk.injEq] at same
      exact .some same

theorem thins_forwardAtRoot_spell {usage : Option Usage} {names : List String} {ns ns' : List Node}
    (thins : Thins (Idle strict) ns ns')
    (forwards : ns'.any isRootElement = true → forwarded? usage ns' = forwarded? usage ns) :
    Thins (Idle strict)
      ((ns.map (spell usage names)).map (forwardAtRoot (forwarded? usage (ns.map (spell usage names)))))
      ((ns'.map (spell usage names)).map
        (forwardAtRoot (forwarded? usage (ns'.map (spell usage names))))) := by
  refine (thins_spell thins).forwardAtRoot fun n hn => ?_
  obtain ⟨m, hm, rfl⟩ := List.mem_map.1 hn
  rw [forwarded?_spell, forwarded?_spell]
  -- What would be forwarded differs at most where no element is left that could receive it.
  cases isRoot : (spell usage names m).isRootElement with
  | true =>
    rw [isRootElement_spell] at isRoot
    rw [forwards (List.any_eq_true.2 ⟨m, hm, isRoot⟩)]
  | false =>
    have stays : ∀ source, (spell usage names m).forwardAtRoot source = spell usage names m := by
      intro source
      cases source with
      | none => rfl
      | some source =>
        rw [forwardAtRoot, isRoot]
        rfl
    rw [stays, stays]

theorem thinned_declaredBody (wf : tag.isWellFormed = true) (isDefinition : tag.isDefinition = true)
    (definitions : ∀ n, D n → n.isDefinition = true) (thinned : Thinned D tag tag') :
    Thinned D tag.declaredBody tag'.declaredBody := by
  obtain ⟨ns, ns', below, below', thins⟩ := nodesBelow_of_thinned wf isDefinition thinned
  have pos_eq : tag'.pos = tag.pos := by rw [← pos_bare, thinned.bare_eq, pos_bare]
  rw [declaredBody_eq below, declaredBody_eq below', pos_eq]
  exact (thins_withoutName definitions thins).thinned_seq _ _

/-- A definition with nodes taken out of its body is read as before, if it is not seen from it. -/
theorem follows_ofNode (wf : tag.isWellFormed = true) (isDefinition : tag.isDefinition = true)
    (idle : ∀ n, D n → n.Idle strict) (slotFree : ∀ n, D n → n.SlotFree) (thinned : Thinned D tag tag')
    (unseen : Unseen analysis config tag tag') :
    Follows True (Definition.ThinsTo strict) (ofNode config tag analysis).value?
      (ofNode config tag' analysis).value? := by
  have definitions : ∀ n, D n → n.isDefinition = true := fun n out => (idle n out).1
  have isDefinition' := isDefinition_eq_of_tag?_eq thinned.tag?_eq ▸ isDefinition
  obtain ⟨ns, ns', below, below', thins⟩ := nodesBelow_of_thinned wf isDefinition thinned
  have pos_eq : tag'.pos = tag.pos := by rw [← pos_bare, thinned.bare_eq, pos_bare]
  have body := isWellFormed_declaredBody wf isDefinition below
  have body' := isWellFormed_declaredBody (thinned.isWellFormed wf) isDefinition' below'
  have bodies := thinned_declaredBody wf isDefinition definitions thinned
  rw [value?_ofNode below body, value?_ofNode below' body']
  have header : ∀ location, readName config.reporter location ns' =
      readName config.reporter location ns := by
    intro location
    rw [readName, readName, find?_isText_of_thins definitions thins]
  have filed : ∀ {usage : Option Usage} {names : List String} {b : Node}, b.isWellFormed = true →
      ∀ n ∈ b.children.map (spell usage names), n.Lacks isMisfiled := by
    intro usage names b wf n hn
    obtain ⟨c, hc, rfl⟩ := List.mem_map.1 hn
    exact lacks_isMisfiled (isWellFormed_spell (isWellFormed_of_mem_children wf hc))
  -- The steps of reading one after the other: name, slots, keys, names of the caller.
  simp only [Node.location, pos_eq, unseen.usage, header]
  refine (Follows.refl _).bind ?_
  rintro name _ rfl
  refine (Follows.of_rel (rel_collectSlots (samePlace_slotRoutes slotFree bodies) rfl)).bind
    fun slots slots' keys => ?_
  refine (Follows.refl _).yielded.bind ?_
  rintro usage _ ⟨used, -, rfl⟩
  refine unseen.follows_scope.bind ?_
  rintro scope scope' ⟨derived, external⟩
  rw [external, derived]
  refine (Follows.refl _).map fun _ _ _ => ⟨rfl, names_eq_of_keys keys, rfl, ?_, ?_⟩
  · exact List.forall_mem_append.2 ⟨filed body, filed body'⟩
  · exact thins_forwardAtRoot_spell (bodies.thins_children.imp idle)
      (unseen.forwards usage (toOption_eq_some_iff.1 used))

theorem codeDestructurings_bare (n : Node) : n.bare.codeDestructurings = n.codeDestructurings := by
  cases n with
  | owner pos head block => cases head <;> rfl
  | _ => rfl

theorem sightings_bare (n : Node) : n.bare.sightings = n.sightings := by
  cases n with
  | owner pos head block => cases head <;> rfl
  | fork pos head main alternate => cases head <;> rfl
  | _ => rfl

theorem unseen_of_silent (wf : tag.isWellFormed = true) (isDefinition : tag.isDefinition = true)
    (definitions : ∀ n, D n → n.isDefinition = true)
    (silent : ∀ n, D n → n.survey codeDestructurings = .ok [] ∧ n.survey sightings = .ok [])
    (thinned : Thinned D tag tag')
    (forwards : ∀ usage, tag.declaredBody.usage = .ok usage →
      tag'.declaredBody.children.any isRootElement = true →
        forwarded? usage tag'.declaredBody.children = forwarded? usage tag.declaredBody.children) :
    Unseen {} config tag tag' := by
  have bodies := thinned_declaredBody wf isDefinition definitions thinned
  have keys : tag'.declaredBody.usage = tag.declaredBody.usage := by
    rw [Node.usage, Node.usage,
      survey_eq_of_thinned codeDestructurings_bare (fun n out => (silent n out).1) bodies]
  have names : Scope.analyze config.allowedGlobals tag'.declaredBody =
      Scope.analyze config.allowedGlobals tag.declaredBody := by
    rw [Scope.analyze, Scope.analyze,
      survey_eq_of_thinned sightings_bare (fun n out => (silent n out).2) bodies]
  exact ⟨keys, congrArg (Except.map _) names, forwards⟩

end Reading

end Definition

end PugComponents

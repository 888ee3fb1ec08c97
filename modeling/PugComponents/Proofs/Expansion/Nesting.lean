import PugComponents.Proofs.Definition.Reports
import PugComponents.Proofs.Expansion.Instantiation
import PugComponents.Proofs.Expansion.NormalForm

/-! How deep calls nest. `Entered` has the calls that a run comes to expand, each with the components
around it: these are distinct and registered, so that there are never more of them than definitions. A run
with room for so many is not stopped by calls; only content that is replaced inside content can exhaust
it. -/

namespace PugComponents

open Node Outcome

/-- All passes over a template, where calls nest in bodies and replacements in content no deeper than it
is allowed. -/
def passesWithin (calls replacements : Nat) (config : Config) (page : Node) : Recorded Node := do
  let x := Expansion.mk (registered {} config page) config
  (Detection.ofTree config Registry.empty page).outcome
  let expanded ← page.expandNode (x.expandCallWithin replacements calls [])
  let kept ← expanded.removeDefinitions
  let tree ← kept.flatten
  Session.announce config x.registry
  return tree

def expandWithin (calls replacements : Nat) (config : Config) (page : Node) : Recorded Node :=
  let run := passesWithin calls replacements config page
  { run with result := run.result.mapError (Session.reportDepth config page) }

theorem expandWithin_depthLimit (config : Config) (page : Node) :
    expandWithin Expansion.depthLimit Provided.depthLimit config page = expand config page := by
  have calls : ∀ x : Expansion,
      x.expandCallWithin Provided.depthLimit Expansion.depthLimit [] = x.call [] :=
    fun x => funext (x.expandCallWithin_depthLimit _ [])
  simp only [expandWithin, passesWithin, registered, calls, expand, Session.transform, Session.finish,
    Expansion.tree, Run.bind_assoc]

namespace Expansion

variable {x : Expansion} {calls replacements depth : Nat} {stack : List String} {page call : Node}

/-- The calls that are expanded in a run over the page, each with the components around it and with how
deep calls may still nest. -/
inductive Entered (x : Expansion) (calls replacements : Nat) (page : Node) :
    Nat → List String → Node → Prop where
  | outer {call : Node} (invoked : Invokes (x.expandCallWithin replacements calls []) page call) :
    Entered x calls replacements page calls [] call
  | inner {depth : Nat} {stack : List String} {around call : Node} {d : Definition} {nodes : List Node}
    (entered : Entered x calls replacements page (depth + 1) stack around)
    (found : x.target stack around = .ok d)
    (made : (x.instantiateWithin replacements d around).result = .ok nodes)
    (invoked :
      Invokes (x.expandCallWithin replacements depth (stack ++ [d.name])) (block {} nodes) call) :
    Entered x calls replacements page depth (stack ++ [d.name]) call

namespace Entered

theorem isCall (h : x.Entered calls replacements page depth stack call) : call.isCall = true := by
  cases h with
  | outer invoked => exact isCall_of_invokes invoked
  | inner _ _ _ invoked => exact isCall_of_invokes invoked

theorem isCallStack (h : x.Entered calls replacements page depth stack call) :
    IsCallStack x.registry stack := by
  induction h with
  | outer => exact .nil _
  | inner entered found _ _ ih => exact isCallStack_of_target ih entered.isCall found

/-- The room that is left is what the components around the call have not taken. -/
theorem depth_add_length (h : x.Entered calls replacements page depth stack call) :
    depth + stack.length = calls := by
  induction h with
  | outer => simp
  | inner _ _ _ _ ih =>
    rw [List.length_append, List.length_singleton]
    omega

theorem soundFor (bodies : x.HasSoundBodies page) (wf : page.isWellFormed = true)
    (h : x.Entered calls replacements page depth stack call) : page.SoundFor call := by
  induction h with
  | outer invoked =>
    exact soundFor_of_invokes (callsKeep_expandCallWithin bodies _ _ _) ⟨wf, stemsFrom_self page⟩ invoked
  | inner entered found made invoked ih =>
    have nodes := soundFor_of_instantiateWithin entered.isCall ih
      (bodies.of_target entered.isCall found) made
    exact soundFor_of_invokes (callsKeep_expandCallWithin bodies _ _ _) (soundFor_block nodes) invoked

end Entered

/-- Why a run finds the nesting too deep: what one of its calls provides would have to be replaced inside
itself too often, or there is a component for a call inside as many calls as are allowed. -/
inductive TooDeep (x : Expansion) (calls replacements : Nat) (page : Node) : Prop where
  | filling {depth : Nat} {stack : List String} {call : Node} {d : Definition} {provided : Provided}
    {nodes : List Node} (entered : x.Entered calls replacements page depth stack call)
    (found : x.target stack call = .ok d) (prepared : (x.prepare d call).result = .ok (provided, nodes))
    (nests : provided.Nests x.config.reporter (replacements + 1) nodes) :
    TooDeep x calls replacements page
  | calls {stack : List String} {call : Node} {d : Definition}
    (entered : x.Entered calls replacements page 0 stack call) (found : x.target stack call = .ok d) :
    TooDeep x calls replacements page

theorem reports_of_target (isCall : call.isCall = true) {e : Failure}
    (h : x.target stack call = .error e) : e.Reports x.config.reporter call := by
  obtain ⟨name, called⟩ := exists_calledName? isCall
  rcases target_cases x stack called with ⟨-, eq⟩ | ⟨-, -, eq⟩ | ⟨-, d, -, eq⟩
  · rw [eq] at h
    cases h
    exact Failure.reports_location ⟨isCall, by rw [called, cycleAt, List.getLast?_concat]⟩
  · rw [eq] at h
    cases h
    exact Failure.reports_location called
  · rw [eq] at h
    cases h

/-- A call that fails in a run reports a node of the page, or the nesting is too deep, or a call inside it
fails, which has less room. -/
theorem Entered.eq_error_or_inner (bodies : x.HasSoundBodies page) (wf : page.isWellFormed = true)
    (entered : x.Entered calls replacements page depth stack call) {e : Failure}
    (h : (x.expandCallWithin replacements depth stack call).result = .error e) :
    e.ReportsIn x.config.reporter page ∨ (e = .fault .tooDeep ∧ x.TooDeep calls replacements page) ∨
      ∃ rest stack' call', depth = rest + 1 ∧ x.Entered calls replacements page rest stack' call' ∧
        (x.expandCallWithin replacements rest stack' call').result = .error e := by
  have isCall := entered.isCall
  have sound := entered.soundFor bodies wf
  rcases expandCallWithin_eq_error h with h | ⟨d, found, h | ⟨nodes, made, h⟩⟩
  · exact .inl ((reports_of_target isCall h).reportsIn sound.stems)
  · rcases instantiateWithin_eq_error isCall sound (bodies.of_target isCall found) h with
      reports | ⟨rfl, provided, nodes, prepared, nests⟩
    · exact .inl reports
    · exact .inr (.inl ⟨rfl, .filling entered found prepared nests⟩)
  rcases h with ⟨rfl, rfl⟩ | ⟨rest, rfl, failed⟩
  · exact .inr (.inl ⟨rfl, .calls entered found⟩)
  · have inner := soundFor_of_instantiateWithin isCall sound (bodies.of_target isCall found) made
    have whole : (expandNode (x.expandCallWithin replacements rest (stack ++ [d.name]))
        (block {} nodes)).result = .error e := by
      rw [block, expandNode_seq, Run.result_bind_pure_eq_error]
      exact failed
    obtain ⟨m, invoked, failed⟩ :=
      exists_invokes_of_expandNode (soundFor_block inner).isWellFormed whole
    exact .inr (.inr ⟨rest, _, m, rfl, .inner entered found made invoked, failed⟩)

theorem Entered.eq_error (bodies : x.HasSoundBodies page) (wf : page.isWellFormed = true)
    (entered : x.Entered calls replacements page depth stack call) {e : Failure}
    (h : (x.expandCallWithin replacements depth stack call).result = .error e) :
    e.ReportsIn x.config.reporter page ∨ e = .fault .tooDeep ∧ x.TooDeep calls replacements page := by
  induction depth generalizing stack call with
  | zero =>
    rcases entered.eq_error_or_inner bodies wf h with reports | tooDeep | ⟨_, _, _, depth_eq, -⟩
    · exact .inl reports
    · exact .inr tooDeep
    · cases depth_eq
  | succ depth ih =>
    rcases entered.eq_error_or_inner bodies wf h with
      reports | tooDeep | ⟨_, _, _, ⟨rfl⟩, inner, failed⟩
    · exact .inl reports
    · exact .inr tooDeep
    · exact ih inner failed

/-- A call in as many components as there are definitions has no component of its own. -/
theorem TooDeep.exists_filling (room : x.registry.definitions.length ≤ calls)
    (h : x.TooDeep calls replacements page) :
    ∃ depth stack call d provided nodes, x.Entered calls replacements page depth stack call ∧
      x.target stack call = .ok d ∧ (x.prepare d call).result = .ok (provided, nodes) ∧
      provided.Nests x.config.reporter (replacements + 1) nodes := by
  cases h with
  | filling entered found prepared nests => exact ⟨_, _, _, _, _, _, entered, found, prepared, nests⟩
  | calls entered found =>
    have within := (isCallStack_of_target entered.isCallStack entered.isCall found).length_le
    have taken := entered.depth_add_length
    rw [List.length_append, List.length_singleton] at within
    omega

theorem expandCallWithin_succ (isCallStack : IsCallStack x.registry stack) (isCall : call.isCall = true)
    (room : x.registry.definitions.length ≤ depth + stack.length) :
    x.expandCallWithin replacements (depth + 1) stack call =
      x.expandCallWithin replacements depth stack call := by
  induction depth generalizing stack call with
  | zero =>
    rw [expandCallWithin, expandCallWithin]
    refine Run.bind_congr_of_ok fun d found => ?_
    -- The component that is found would be one more than the registry has.
    have within := (isCallStack_of_target isCallStack isCall found).length_le
    rw [List.length_append, List.length_singleton] at within
    omega
  | succ depth ih =>
    rw [expandCallWithin, expandCallWithin]
    refine Run.bind_congr_of_ok fun d found => Run.bind_congr_of_ok fun _ _ =>
      Run.bind_congr_of_ok fun nodes _ => ?_
    refine expandBlock_congr_of_invokes fun m invoked => ?_
    refine ih (isCallStack_of_target isCallStack isCall found) (isCall_of_invokes invoked) ?_
    rw [List.length_append, List.length_singleton]
    omega

theorem expandCallWithin_eq_of_room {more : Nat} (isCallStack : IsCallStack x.registry stack)
    (isCall : call.isCall = true) (room : x.registry.definitions.length ≤ depth + stack.length)
    (le : depth ≤ more) :
    x.expandCallWithin replacements more stack call =
      x.expandCallWithin replacements depth stack call := by
  induction le with
  | refl => rfl
  | @step more le ih =>
    have enough : depth ≤ more := le
    rw [expandCallWithin_succ isCallStack isCall (by omega), ih]

end Expansion

variable {config : Config} {page : Node} {calls replacements : Nat}

theorem hasSoundBodies_of_registers {reg : Registry} (wf : page.isWellFormed = true)
    (described : Registers page reg) : (Expansion.mk reg config).HasSoundBodies page := by
  intro d hd n hn
  obtain ⟨tag, htag, describes⟩ := exists_of_forall₂_right described hd
  have member := List.mem_of_mem_filter htag
  exact ⟨describes.isWellFormed (isWellFormed_of_mem_walk wf member) n hn,
    describes.stems page ((stemsFrom_self page).of_mem_walk member) n hn⟩

theorem expandWithin_eq_error (isBlock : page.isBlock = true) (wf : page.isWellFormed = true)
    {e : Failure} (h : (expandWithin calls replacements config page).result = .error e) :
    e.ReportsIn config.reporter page ∨
      e = .diagnostic (config.reporter.report .expansionDepth (some page.location)) ∧
        (Detection.ofTree config Registry.empty page).outcome.result = .ok () ∧
        (Expansion.mk (registered {} config page) config).TooDeep calls replacements page := by
  have unchanged : ∀ e : Failure, e.ReportsIn config.reporter page →
      (Session.reportDepth config page e).ReportsIn config.reporter page := by
    rintro _ ⟨n, hn, d, loc, rfl, reports⟩
    exact ⟨n, hn, d, loc, rfl, reports⟩
  simp only [expandWithin, passesWithin, mapError_eq_error] at h
  obtain ⟨e', h, rfl⟩ := h
  rcases Run.result_bind_eq_error.1 h with h | ⟨_, detected, h⟩
  · exact .inl (unchanged e' (Detection.reportsIn_of_ofTree wf Registry.empty e' h))
  have described := (detects_iff.1 ⟨detected, rfl⟩).registers
  have bodies : (Expansion.mk (registered {} config page) config).HasSoundBodies page :=
    hasSoundBodies_of_registers wf described
  rcases Run.result_bind_eq_error.1 h with h | ⟨expanded, run, h⟩
  · obtain ⟨m, invoked, failed⟩ := exists_invokes_of_expandNode wf h
    rcases (Expansion.Entered.outer invoked).eq_error bodies wf failed with reports | ⟨rfl, tooDeep⟩
    · exact .inl (unchanged e' reports)
    · exact .inr ⟨rfl, detected, tooDeep⟩
  · -- What is left to do after the calls does not fail on a well-formed tree.
    have keep := Expansion.callsKeep_expandCallWithin bodies replacements calls []
    have sound := soundFor_of_expandNode keep ⟨wf, stemsFrom_self page⟩ run
    have isBlock' : expanded.isBlock = true := by
      rw [← isBlock_bare, (expandNode_eq_ok run).bare_eq, isBlock_bare, isBlock]
    obtain ⟨kept, tree, removal, flattening⟩ := exists_cleanup isBlock' sound.isWellFormed
    simp [Run.result_bind_eq_error, removal, flattening, announce_eq_ok] at h

/-- In the run over the page the call is expanded, inside the components of the stack. -/
def ExpandsCall (calls replacements : Nat) (config : Config) (page : Node) (stack : List String)
    (call : Node) : Prop :=
  (Detection.ofTree config Registry.empty page).outcome.result = .ok () ∧ ∃ depth,
    (Expansion.mk (registered {} config page) config).Entered calls replacements page depth stack call

/-- In the run over the page there is a call whose component needs its slots filled with replacements that
nest deeper than it is allowed. -/
def FillsBeyond (calls replacements : Nat) (config : Config) (page : Node) : Prop :=
  let x := Expansion.mk (registered {} config page) config
  ∃ stack call d provided nodes, ExpandsCall calls replacements config page stack call ∧
    x.target stack call = .ok d ∧ (x.prepare d call).result = .ok (provided, nodes) ∧
    provided.Nests config.reporter (replacements + 1) nodes

/-- The room for calls does not matter once there is as much as there are definitions. -/
theorem expandWithin_eq_of_room (room : (page.walk.filter isDefinition).length ≤ calls) :
    expandWithin calls replacements config page =
      expandWithin (page.walk.filter isDefinition).length replacements config page := by
  have passes : passesWithin calls replacements config page =
      passesWithin (page.walk.filter isDefinition).length replacements config page := by
    refine Run.bind_congr_of_ok fun _ detected => ?_
    have described := (detects_iff.1 ⟨detected, rfl⟩).registers
    rw [expandNode_congr fun m invoked => ?_]
    refine Expansion.expandCallWithin_eq_of_room (.nil _) (isCall_of_invokes invoked) ?_ room
    exact described.length_eq ▸ Nat.le_refl _
  rw [expandWithin, expandWithin, passes]

/-- The components around every call that is expanded are distinct and registered, and no more than there
are definitions. So where calls may nest as deep as there are definitions, it does not matter how much
deeper they may, and a nesting that is reported as too deep is one of replacements. -/
theorem nesting_of_expand (isBlock : page.isBlock = true) (wf : page.isWellFormed = true) :
    expandWithin Expansion.depthLimit Provided.depthLimit config page = expand config page ∧
    ∀ calls replacements,
      (∀ stack call, ExpandsCall calls replacements config page stack call →
        stack.Nodup ∧ (∀ name ∈ stack, name ∈ (registered {} config page).names) ∧
          stack.length ≤ (page.walk.filter isDefinition).length) ∧
      ((page.walk.filter isDefinition).length ≤ calls →
        expandWithin calls replacements config page =
          expandWithin (page.walk.filter isDefinition).length replacements config page ∧
        ∀ d, (expandWithin calls replacements config page).result = .error (.diagnostic d) →
          d.cause = .expansionDepth → FillsBeyond calls replacements config page) := by
  refine ⟨expandWithin_depthLimit config page, fun calls replacements => ⟨?_, fun room => ⟨?_, ?_⟩⟩⟩
  · rintro stack call ⟨detected, depth, entered⟩
    have described := (detects_iff.1 ⟨detected, rfl⟩).registers
    have isCallStack := entered.isCallStack
    exact ⟨isCallStack.nodup, isCallStack.registered, described.length_eq ▸ isCallStack.length_le⟩
  · exact expandWithin_eq_of_room room
  · intro d failed deep
    rcases expandWithin_eq_error isBlock wf failed with
      ⟨n, -, _, _, ⟨rfl⟩, -, -, blames⟩ | ⟨-, detected, tooDeep⟩
    · rw [deep] at blames
      exact blames.elim
    · have described := (detects_iff.1 ⟨detected, rfl⟩).registers
      obtain ⟨depth, stack, call, component, provided, nodes, entered, filling⟩ :=
        tooDeep.exists_filling (described.length_eq ▸ room)
      exact ⟨stack, call, component, provided, nodes, ⟨detected, depth, entered⟩, filling⟩

/-- A component that frames what it is given, called with content that asks for that content again. -/
def regressPage : Node :=
  block {} [plainTag "component" [plainText "Frame()", plainTag "div" [plainTag "slot" []]],
    plainTag "Frame" [plainTag "p" [plainTag "slot" []]]]

theorem nesting_regressPage :
    reportedCode? (expand {} regressPage).result = some .expansionDepth ∧
      FillsBeyond 200 200 {} regressPage := by
  have reported : reportedCode? (expand {} regressPage).result = some .expansionDepth := by
    decide +kernel
  obtain ⟨d, failed, code⟩ := exists_error_of_reportedCode? reported
  obtain ⟨same, nesting⟩ :=
    @nesting_of_expand {} regressPage (by decide +kernel) (by decide +kernel)
  have room : (regressPage.walk.filter isDefinition).length ≤ Expansion.depthLimit := by decide +kernel
  have deep := Cause.eq_expansionDepth_of_code? code
  exact ⟨reported, ((nesting _ _).2 room).2 d (same ▸ failed) deep⟩

end PugComponents

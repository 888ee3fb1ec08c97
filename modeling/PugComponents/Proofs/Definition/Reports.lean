import PugComponents.Proofs.Definition.Declared
import PugComponents.Proofs.Slots.Reports

/-! How reading the definitions of a well-formed page can fail. Its script is analysed and its attributes
are rewritten without fail, since every value has the type that its field needs; what remains is a
header without a name, a slot that repeats or has no name, a variable of the caller, and a name that
is taken, and each of these is reported at the `component` tag or at the slot. -/

namespace PugComponents

open Node Outcome

section Sightings

theorem sure_expressionSightings {v : Json} (text : v.isText = true) : Sure v.expressionSightings := by
  cases v with
  | str source =>
    unfold Json.expressionSightings
    dsimp only
    split <;> exact sure_ok _
  | _ => cases text

theorem sure_codeSightings {v : Json} (text : v.isText = true) : Sure v.codeSightings := by
  cases v with
  | str source =>
    unfold Json.codeSightings
    dsimp only
    split <;> exact sure_ok _
  | _ => cases text

theorem sure_declaredName {v : Json} (text : v.isText = true) : Sure v.declaredName := by
  cases v with
  | str name => exact sure_ok _
  | _ => cases text

theorem sure_readName {v : Json} (text : v.isText = true) : Sure v.readName := by
  cases v with
  | str name => exact sure_ok _
  | _ => cases text

theorem isText_of_isTruthy {v : Json} (typed : v.isNullOr Json.isText = true)
    (truthy : v.isTruthy = true) : v.isText = true := by
  cases v with
  | null => cases truthy
  | str => rfl
  | _ => cases typed

theorem sure_attributeSightings {attrs : List Attribute} {spreads : List Spread}
    (typed : spreads.all Spread.isTyped = true) : Sure (attributeSightings attrs spreads) := by
  have others : Sure (spreads.mapM fun spread => spread.val.expressionSightings) := by
    refine failsOnly_mapM_of_mem fun spread member => ?_
    have typed := List.all_eq_true.1 typed spread member
    simp only [Spread.isTyped, Bool.and_eq_true] at typed
    exact sure_expressionSightings typed.1
  unfold attributeSightings
  refine FailsOnly.bind (failsOnly_mapM_of_mem fun attr _ => ?_) fun _ => others.bind fun _ => sure_ok _
  split
  · exact sure_expressionSightings rfl
  · exact sure_ok _

theorem sure_mixinSightings {head : MixinHead} (typed : head.args.isNullOr Json.isText = true) :
    Sure (mixinSightings head) := by
  unfold mixinSightings
  split
  · exact sure_ok _
  · rename_i truthy
    split
    · exact sure_expressionSightings rfl
    · have text := isText_of_isTruthy typed (by simpa using truthy)
      cases args : head.args with
      | str params => exact sure_ok _
      | _ => rw [args] at text; cases text

theorem sure_sightings {n : Node} (wf : n.isWellFormed = true) : Sure n.sightings := by
  cases n with
  | owner pos head block =>
    have typed := (isWellFormed_owner.1 wf).2.1
    cases head <;>
      simp only [Owner.isTyped, Element.isTyped, MixinHead.isTyped, Bool.and_eq_true] at typed
    case code val buffer mustEscape isInline =>
      simp only [sightings]
      split
      · exact sure_expressionSightings typed.1.1.1
      · exact sure_codeSightings typed.1.1.1
    case whileLoop test => exact sure_expressionSightings typed
    case caseOf expr => exact sure_expressionSightings typed
    case whenArm expr debug =>
      simp only [sightings]
      split
      · exact sure_ok _
      · exact sure_expressionSightings typed.1
    case interpolatedTag element =>
      exact (sure_expressionSightings typed.1.1.1.1).bind fun _ =>
        (sure_attributeSightings typed.1.1.2).bind fun _ => sure_ok _
    case tag element =>
      refine (sure_attributeSightings typed.1.1.2).bind fun _ => ?_
      rw [callCheck_of_isWellFormed wf]
      refine (sure_ok _).bind fun isCall => ?_
      have names : Sure ((element.attrs.filter fun attr => attr.val == .bool true).mapM fun attr =>
          attr.name.readName) := by
        refine failsOnly_mapM_of_mem fun attr member => ?_
        have typed := List.all_eq_true.1 typed.1.1.1.2 attr (List.mem_of_mem_filter member)
        simp only [Attribute.isTyped, Bool.and_eq_true] at typed
        exact sure_readName typed.1.1.1
      cases isCall with
      | true => exact names.bind fun _ => sure_ok _
      | false => exact sure_ok _
    case mixin head =>
      exact (sure_attributeSightings typed.2).bind fun _ =>
        (sure_mixinSightings typed.1.1.1.2).bind fun _ => sure_ok _
    all_goals exact sure_ok _
  | fork pos head main alternate =>
    have typed := (isWellFormed_fork.1 wf).2.1
    cases head with
    | conditional test => exact sure_expressionSightings typed
    | each obj val key =>
      simp only [Fork.isTyped, Bool.and_eq_true] at typed
      refine (sure_expressionSightings typed.1.1).bind fun _ => ?_
      refine (sure_declaredName typed.1.2).bind fun _ => ?_
      dsimp only
      split
      · rename_i truthy
        exact (sure_declaredName (isText_of_isTruthy typed.2 truthy)).bind fun _ => sure_ok _
      · exact (sure_ok _).bind fun _ => sure_ok _
  | _ => exact sure_ok _

end Sightings

section Surveys

variable {α : Type} {body : Node} (wf : body.isWellFormed = true)
include wf

theorem sure_survey {f : Node → Except Failure (List α)}
    (each : ∀ n, n.isWellFormed = true → Sure (f n)) : Sure (body.survey f) := by
  refine FailsOnly.bind (failsOnly_mapM_of_mem fun n member => ?_) fun _ => sure_ok _
  have wfn := isWellFormed_of_mem_walk wf member
  refine (each n wfn).bind fun own => ?_
  rw [isMisfiled_of_isWellFormed wfn]
  exact sure_ok _

theorem sure_usage : Sure body.usage := by
  refine FailsOnly.bind (sure_survey wf fun n wfn => ?_) fun _ => sure_ok _
  unfold codeDestructurings
  split
  · rename_i pos val buffer mustEscape isInline block
    have typed := (isWellFormed_owner.1 wfn).2.1
    simp only [Owner.isTyped, Bool.and_eq_true] at typed
    cases val with
    | str source => exact (sure_ok _).bind fun _ => sure_ok _
    | _ => cases typed.1.1.1
  · exact sure_ok _

theorem sure_analyze (allowed : List String) : Sure (Scope.analyze allowed body) :=
  FailsOnly.bind (sure_survey wf fun _ => sure_sightings) fun _ => sure_ok _

theorem sure_unescaped (usage : Option Usage) (scope : Scope) :
    Sure (Definition.unescaped usage scope body) := by
  cases usage with
  | none => exact sure_ok _
  | some usage =>
    refine FailsOnly.bind ?_ fun _ => sure_ok _
    unfold unescape
    split
    · exact sure_ok _
    · refine FailsOnly.bind (sure_survey wf fun n _ => ?_) fun _ => sure_ok _
      unfold derivedAttributes
      split <;> exact sure_ok _

end Surveys

namespace Node

def VisitsSlot (ns : List Node) (v : Visit) : Prop :=
  ∃ p, v = .ok p ∧ p.slot.isSlot = true ∧ p.slot ∈ ns

theorem VisitsSlot.mono {ns ms : List Node} {v : Visit} (h : VisitsSlot ns v) (sub : ns ⊆ ms) :
    VisitsSlot ms v := by
  obtain ⟨p, ok, isSlot, member⟩ := h
  exact ⟨p, ok, isSlot, sub member⟩

theorem labelFault?_of_isWellFormed {n : Node} (wf : n.isWellFormed = true) : n.labelFault? = none := by
  have check := callCheck_of_isWellFormed wf
  cases fault : n.labelFault? with
  | none => rfl
  | some f => simp [callCheck, fault] at check

mutual

theorem visitsSlot_placeholders : (n : Node) → n.isWellFormed = true → (path : List String) →
    ∀ v ∈ n.placeholders path, VisitsSlot n.walk v
  | .leaf .., _, path => by simp [placeholders]
  | .seq pos head nodes, wf, path => by
    have below := visitsSlot_placeholdersAll nodes (isWellFormed_seq.1 wf).2.2 path
    rw [placeholders, walk]
    exact fun v hv => (below v hv).mono (List.subset_cons_self _ _)
  | .owner pos head block, wf, path => by
    have below : ∀ path, ∀ v ∈ placeholdersOption path block,
        VisitsSlot (owner pos head block).walk v := by
      intro path v hv
      rw [walk]
      have visited := visitsSlot_placeholdersOption block
        (fun n hn => ((isWellFormed_owner.1 wf).2.2.2 n hn).2) path v hv
      exact visited.mono (List.subset_cons_self _ _)
    rw [placeholders, labelFault?_of_isWellFormed wf]
    dsimp only
    split
    · simp
    · split
      · rename_i isSlot
        rw [List.forall_mem_cons]
        exact ⟨⟨_, rfl, isSlot, self_mem_walk _⟩, below path⟩
      · exact below _
  | .fork pos (.each obj val key) main alternate, wf, path => by
    obtain ⟨-, -, -, first, second⟩ := isWellFormed_fork.1 wf
    have mainVisits := visitsSlot_placeholdersOption main (fun n hn => (first n hn).2)
    have otherVisits := visitsSlot_placeholdersOption alternate (fun n hn => (second n hn).2)
    rw [placeholders, walk]
    intro v hv
    rcases List.mem_append.1 hv with hv | hv
    · exact (mainVisits _ v hv).mono fun n hn => by simp [hn]
    · exact (otherVisits _ v hv).mono fun n hn => by simp [hn]
  | .fork pos (.conditional test) main alternate, wf, path => by
    obtain ⟨-, -, -, first, second⟩ := isWellFormed_fork.1 wf
    have mainVisits := visitsSlot_placeholdersOption main fun n hn => (first n hn).2
    have otherVisits := visitsSlot_placeholdersElse alternate second
    rw [placeholders, walk]
    intro v hv
    rcases List.mem_append.1 hv with hv | hv
    · exact (mainVisits _ v hv).mono fun n hn => by simp [hn]
    · exact (otherVisits _ _ v hv).mono fun n hn => by simp [hn]
  | .inclusion pos file block, wf, path => by
    have below := visitsSlot_placeholdersFile file (isWellFormed_inclusion.1 wf).2.1 path
    rw [placeholders, walk]
    exact fun v hv => (below v hv).mono (List.subset_cons_self _ _)
  | .extension pos file, wf, path => by
    have below := visitsSlot_placeholdersFile file (isWellFormed_extension.1 wf).2 path
    rw [placeholders, walk]
    exact fun v hv => (below v hv).mono (List.subset_cons_self _ _)
  | .rawInclusion .., _, path => by simp [placeholders]
  | .fileReference .., _, path => by simp [placeholders]
termination_by structural n => n

theorem visitsSlot_placeholdersAll : (ns : List Node) → (∀ n ∈ ns, n.isWellFormed = true) →
    (path : List String) → ∀ v ∈ placeholdersAll path ns, VisitsSlot (walkAll ns) v
  | [], _, path => by simp [placeholdersAll]
  | n :: ns, wf, path => by
    rw [List.forall_mem_cons] at wf
    have first := visitsSlot_placeholders n wf.1 path
    have others := visitsSlot_placeholdersAll ns wf.2 path
    rw [placeholdersAll, walkAll]
    intro v hv
    rcases List.mem_append.1 hv with hv | hv
    · exact (first v hv).mono (List.subset_append_left _ _)
    · exact (others v hv).mono (List.subset_append_right _ _)
termination_by structural ns => ns

theorem visitsSlot_placeholdersOption : (o : Option Node) → (∀ n ∈ o, n.isWellFormed = true) →
    (path : List String) → ∀ v ∈ placeholdersOption path o, VisitsSlot (walkOption o) v
  | none, _, path => by simp [placeholdersOption]
  | some n, wf, path => by
    rw [placeholdersOption, walkOption]
    exact visitsSlot_placeholders n (wf n rfl) path
termination_by structural o => o

theorem visitsSlot_placeholdersElse : (o : Option Node) →
    (∀ n ∈ o, (n.isBlock || n.isConditional) = true ∧ n.isWellFormed = true) →
    (path : List String) → (index : Nat) →
    ∀ v ∈ placeholdersElse path index o, VisitsSlot (walkOption o) v
  | none, _, path, index => by simp [placeholdersElse]
  | some (.fork pos (.conditional test) main alternate), wf, path, index => by
    obtain ⟨-, -, -, first, second⟩ := isWellFormed_fork.1 (wf _ rfl).2
    have mainVisits := visitsSlot_placeholdersOption main fun n hn => (first n hn).2
    have otherVisits := visitsSlot_placeholdersElse alternate second
    rw [placeholdersElse, walkOption, walk]
    intro v hv
    rcases List.mem_append.1 hv with hv | hv
    · exact (mainVisits _ v hv).mono fun n hn => by simp [hn]
    · exact (otherVisits _ _ v hv).mono fun n hn => by simp [hn]
  | some (.seq pos head nodes), wf, path, index => by
    have branch := visitsSlot_placeholders (.seq pos head nodes) (wf _ rfl).2
    rw [placeholdersElse, walkOption]
    · exact branch _
    · simp
  | some (.leaf ..), wf, _, _ | some (.owner ..), wf, _, _ | some (.fork _ (.each ..) ..), wf, _, _
  | some (.inclusion ..), wf, _, _ | some (.extension ..), wf, _, _
  | some (.rawInclusion ..), wf, _, _ | some (.fileReference ..), wf, _, _ => by
    simp [isBlock, isConditional] at wf
termination_by structural o => o

theorem visitsSlot_placeholdersFile : (file : Option Node) → IsFile file → (path : List String) →
    ∀ v ∈ placeholdersFile path file, VisitsSlot (walkFile file) v
  | some (.fileReference pos path' fullPath ast), isFile, path => by
    rw [placeholdersFile, walkFile]
    exact visitsSlot_placeholdersOption ast
      (fun n hn => (isWellFormed_of_mem_file isFile hn).2) path
  | none, isFile, _ | some (.leaf ..), isFile, _ | some (.seq ..), isFile, _
  | some (.owner ..), isFile, _ | some (.fork ..), isFile, _ | some (.inclusion ..), isFile, _
  | some (.extension ..), isFile, _ | some (.rawInclusion ..), isFile, _ => by
    simp [IsFile, isFileReference] at isFile
termination_by structural file => file

end

end Node

namespace Definition

variable {config : Config} {r : Reporter} {tag : Node}

theorem sure_nodesBelow (isDefinition : tag.isDefinition = true) (wf : tag.isWellFormed = true) :
    Sure (nodesBelow tag) := by
  obtain ⟨pos, element, block, rfl, -⟩ := exists_tag_of_isTagNamed isDefinition
  cases block with
  | none => exact sure_ok _
  | some b =>
    obtain ⟨pos', head, nodes, rfl⟩ := isBlock_of_mem_tag wf b rfl
    exact sure_ok _

theorem reports_tag {cause : Cause} (blames : cause.Blames tag) :
    (Failure.diagnostic (r.report cause (some (tag.location.withFilename r.filename)))).Reports r tag :=
  Failure.reports_at (Location.standsFor_withFilename rfl rfl rfl) blames

theorem reports_of_readName (isDefinition : tag.isDefinition = true) {nodes : List Node}
    (wf : ∀ n ∈ nodes, n.isWellFormed = true) :
    FailsOnly (·.Reports r tag) (readName r (tag.location.withFilename r.filename) nodes) := by
  unfold readName
  split
  · exact failsOnly_error.2 (reports_tag (.inl isDefinition))
  · rename_i header found
    have read : Sure (textOf header) := by
      have wfHeader := wf header (List.mem_of_find?_eq_some found)
      have holds := List.find?_some found
      unfold isText at holds
      split at holds
      · rename_i pos val
        simp only [isWellFormed, Leaf.isTyped, Bool.and_eq_true] at wfHeader
        cases val with
        | str text => exact sure_ok _
        | _ => cases wfHeader.2
      · cases holds
    refine read.failsOnly.bind fun text => ?_
    split
    · exact failsOnly_ok _
    · exact failsOnly_error.2 (reports_tag (.inl isDefinition))

theorem reports_of_collectSlots {ns : List Node} {seen : List SlotDefinition} {visits : List Visit}
    (fine : ∀ v ∈ visits, VisitsSlot ns v) :
    FailsOnly (fun e => ∃ n ∈ ns, e.Reports r n) (collectSlots r seen visits) := by
  induction visits generalizing seen with
  | nil => exact failsOnly_ok _
  | cons v visits ih =>
    rw [List.forall_mem_cons] at fine
    obtain ⟨⟨p, rfl, isSlot, member⟩, fine⟩ := fine
    rw [collectSlots]
    refine FailsOnly.bind_of_ok ?_ fun slot read => ?_
    · refine FailsOnly.bind (fun e h => ?_) fun _ => failsOnly_ok _
      exact ⟨p.slot, member, reports_of_slotName isSlot h⟩
    · split
      · simp only [slotOf, bind_eq_ok, pure_eq_ok] at read
        obtain ⟨name, -, rfl⟩ := read
        refine failsOnly_error.2 ⟨p.slot, member, ?_⟩
        exact Failure.reports_at (Location.standsFor_withFilename rfl rfl rfl) isSlot
      · exact ih fine

theorem reports_of_checkScope (isDefinition : tag.isDefinition = true) (mode : ScopeMode)
    (name : String) (names : List String) :
    FailsOnly (·.Reports r tag)
      (checkScope r mode name (tag.location.withFilename r.filename) names).result := by
  induction names with
  | nil => exact failsOnly_ok _
  | cons external names ih =>
    cases mode with
    | off => exact failsOnly_ok _
    | error => exact failsOnly_error.2 (reports_tag isDefinition)
    | warn =>
      rw [checkScope]
      exact Run.failsOnly_bind (failsOnly_ok _) fun _ _ => ih

theorem reportsIn_of_ofNode (isDefinition : tag.isDefinition = true) (wf : tag.isWellFormed = true) :
    FailsOnly (Failure.ReportsIn config.reporter tag) (ofNode config tag).result := by
  have atTag : ∀ e : Failure, e.Reports config.reporter tag → e.ReportsIn config.reporter tag :=
    fun e reports => ⟨tag, self_mem_walk tag, reports⟩
  refine Run.failsOnly_bind (sure_nodesBelow isDefinition wf).failsOnly fun nodes below => ?_
  have stems : tag.StemsFrom (block tag.pos (withoutName nodes)) := by
    refine stemsFrom_block fun n hn => ?_
    obtain ⟨b, hb, hn⟩ := exists_block_of_nodesBelow isDefinition below n (mem_of_mem_withoutName hn)
    exact ((stemsFrom_self tag).of_mem_children hb).of_mem_children hn
  have wfNodes := isWellFormed_of_nodesBelow wf isDefinition below
  have wfBody : (block tag.pos (withoutName nodes)).isWellFormed = true :=
    isWellFormed_block (isTyped_pos wf) fun n hn => wfNodes n (mem_of_mem_withoutName hn)
  refine Run.failsOnly_bind ((reports_of_readName isDefinition wfNodes).imp atTag) fun name _ => ?_
  refine Run.failsOnly_bind ?_ fun slots _ => ?_
  · refine (reports_of_collectSlots (visitsSlot_placeholders _ wfBody [])).imp ?_
    rintro e ⟨n, hn, reports⟩
    exact reports.reportsIn (stems.of_mem_walk hn)
  refine Run.failsOnly_bind (sure_usage wfBody).failsOnly fun usage _ => ?_
  refine Run.failsOnly_bind (sure_analyze wfBody _).failsOnly fun scope _ => ?_
  refine Run.failsOnly_bind ((reports_of_checkScope isDefinition _ _ _).imp atTag) fun _ _ => ?_
  exact Run.failsOnly_bind (sure_unescaped wfBody _ _).failsOnly fun _ _ => failsOnly_ok _

theorem location_of_ofNode {d : Definition} (h : (ofNode config tag).result = .ok d) :
    d.location = tag.location.withFilename config.filename := by
  rw [ofNode, Run.result_bind_eq_ok] at h
  obtain ⟨nodes, -, h⟩ := h
  simp only [ofNodes, Run.result_bind_eq_ok, Run.result_pure, Except.ok.injEq] at h
  obtain ⟨name, -, slots, -, usage, -, scope, -, _, -, body, -, rfl⟩ := h
  rfl

end Definition

namespace Detection

variable {config : Config}

theorem reportsIn_of_step {n : Node} (wf : n.isWellFormed = true) (reg : Registry) :
    FailsOnly (Failure.ReportsIn config.reporter n) (step {} config reg n).result := by
  unfold step
  split
  · rename_i isDefinition
    refine Run.failsOnly_bind (Definition.reportsIn_of_ofNode isDefinition wf) fun d read => ?_
    refine Run.failsOnly_bind ?_ fun added _ => ?_
    · rw [Run.result_lift]
      unfold Registry.register
      split
      · rw [Definition.location_of_ofNode read]
        exact failsOnly_error.2 ⟨n, self_mem_walk n, Definition.reports_tag isDefinition⟩
      · exact failsOnly_ok _
    · split
      · exact Run.failsOnly_bind (failsOnly_ok _) fun _ _ => failsOnly_ok _
      · exact failsOnly_ok _
  · rw [isMisfiled_of_isWellFormed wf]
    exact failsOnly_ok _

theorem reports_of_ofList {ns : List Node} (wf : ∀ n ∈ ns, n.isWellFormed = true) (reg : Registry) :
    FailsOnly (fun e => ∃ n ∈ ns, e.ReportsIn config.reporter n)
      (ofList {} config reg ns).outcome.result := by
  induction ns generalizing reg with
  | nil => exact failsOnly_ok _
  | cons n ns ih =>
    rw [List.forall_mem_cons] at wf
    have first := @reportsIn_of_step config n wf.1 reg
    rw [ofList]
    cases run : (step {} config reg n).result with
    | error e => exact failsOnly_error.2 ⟨n, by simp, first e run⟩
    | ok next =>
      refine (ih wf.2 next).imp ?_
      rintro e ⟨m, hm, reports⟩
      exact ⟨m, List.mem_cons_of_mem _ hm, reports⟩

theorem reportsIn_of_ofTree {page : Node} (wf : page.isWellFormed = true) (reg : Registry) :
    FailsOnly (Failure.ReportsIn config.reporter page) (ofTree config reg page).outcome.result := by
  refine (reports_of_ofList (fun n => isWellFormed_of_mem_walk wf) reg).imp ?_
  rintro e ⟨n, hn, m, hm, reports⟩
  exact ⟨m, mem_walk_trans hm hn, reports⟩

end Detection

end PugComponents

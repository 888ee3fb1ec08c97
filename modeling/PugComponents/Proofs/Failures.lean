import PugComponents.Proofs.Outcome
import PugComponents.Proofs.Tree.Lineage
import PugComponents.Session

/-! Where recursion is not reported. Expanding a call reports that the component is already being
expanded around it, and nothing else does: neither registering definitions nor instantiating a
body. -/

namespace PugComponents

def Cause.cycle? : Cause → Option (List String)
  | .recursiveCall cycle => some cycle
  | _ => none

def Failure.cycle? : Failure → Option (List String)
  | .diagnostic d => d.cause.cycle?
  | _ => none

open Outcome

abbrev Plain {α : Type} (x : Except Failure α) : Prop := FailsOnly (fun e => e.cycle? = none) x

variable {α β : Type}

theorem cycle?_report (r : Reporter) (cause : Cause) (location : Option Location) :
    (Failure.diagnostic (r.report cause location)).cycle? = cause.cycle? := by
  cases cause <;> rfl

@[simp] theorem plain_ok (a : α) : Plain (.ok a : Except Failure α) := failsOnly_ok a

@[simp] theorem plain_pure (a : α) : Plain (pure a : Except Failure α) := failsOnly_ok a

@[simp] theorem plain_fault (f : Fault) : Plain (.error (.fault f) : Except Failure α) :=
  failsOnly_error.2 rfl

@[simp] theorem plain_report {r : Reporter} {cause : Cause} {location : Option Location} :
    Plain (.error (.diagnostic (r.report cause location)) : Except Failure α) ↔ cause.cycle? = none := by
  rw [Plain, failsOnly_error, cycle?_report]

theorem plain_run_bind {x : Recorded α} {f : α → Recorded β} (first : Plain x.result)
    (next : ∀ a, Plain (f a).result) : Plain (x >>= f).result :=
  Run.failsOnly_bind first fun a _ => next a

namespace Node

theorem plain_slotName (r : Reporter) (n : Node) : Plain (n.slotName r) := by
  unfold slotName
  split
  · simp
  · split
    · split <;> simp [Cause.cycle?]
    · split <;> simp

theorem plain_callCheck (n : Node) : Plain n.callCheck := by
  unfold callCheck
  split <;> simp

theorem plain_survey {f : Node → Except Failure (List α)} (each : ∀ n, Plain (f n)) (root : Node) :
    Plain (root.survey f) := by
  refine FailsOnly.bind (failsOnly_mapM (fun n => ?_) root.walk) fun _ => plain_pure _
  refine FailsOnly.bind (each n) fun own => ?_
  split <;> simp

theorem plain_anyBelow (p : Node → Bool) (root : Node) : Plain (root.anyBelow p) := by
  unfold anyBelow
  induction root.walk with
  | nil => simp [anyBelow.go]
  | cons n ns ih =>
    rw [anyBelow.go]
    split
    · simp
    · split
      · simp
      · exact ih

theorem plain_usage (body : Node) : Plain body.usage := by
  refine FailsOnly.bind (plain_survey (fun n => ?_) body) fun _ => plain_pure _
  unfold codeDestructurings
  split
  · refine FailsOnly.bind ?_ fun _ => plain_pure _
    unfold Script.Fragment.ofStatements
    split <;> simp
  · simp

end Node

section Scopes

theorem plain_expressionSightings (v : Json) : Plain v.expressionSightings := by
  unfold Json.expressionSightings
  split
  · split <;> simp
  · split <;> simp

theorem plain_codeSightings (v : Json) : Plain v.codeSightings := by
  unfold Json.codeSightings
  split
  · split <;> simp
  · simp

theorem plain_declaredName (v : Json) : Plain v.declaredName := by
  unfold Json.declaredName
  split <;> simp

theorem plain_readName (v : Json) : Plain v.readName := by
  unfold Json.readName
  split <;> simp

theorem plain_attributeSightings (attrs : List Attribute) (spreads : List Spread) :
    Plain (attributeSightings attrs spreads) := by
  refine FailsOnly.bind (failsOnly_mapM (fun attr => ?_) attrs) fun _ => ?_
  · split
    · exact plain_expressionSightings _
    · simp
  · refine FailsOnly.bind (failsOnly_mapM (fun spread => ?_) spreads) fun _ => plain_pure _
    exact plain_expressionSightings spread.val

theorem plain_mixinSightings (head : MixinHead) : Plain (mixinSightings head) := by
  unfold mixinSightings
  split
  · simp
  · split
    · exact plain_expressionSightings _
    · split <;> simp

theorem plain_sightings (n : Node) : Plain n.sightings := by
  unfold Node.sightings
  split
  · split
    · exact plain_expressionSightings _
    · exact plain_codeSightings _
  · exact plain_expressionSightings _
  · exact plain_expressionSightings _
  · split
    · simp
    · exact plain_expressionSightings _
  · refine FailsOnly.bind (plain_expressionSightings _) fun _ => ?_
    exact FailsOnly.bind (plain_attributeSightings _ _) fun _ => plain_pure _
  · refine FailsOnly.bind (plain_attributeSightings _ _) fun _ => ?_
    refine FailsOnly.bind (Node.plain_callCheck _) fun isCall => ?_
    split
    · exact FailsOnly.bind (failsOnly_mapM (fun (attr : Attribute) => plain_readName attr.name) _)
        fun _ => plain_pure _
    · simp
  · refine FailsOnly.bind (plain_attributeSightings _ _) fun _ => ?_
    exact FailsOnly.bind (plain_mixinSightings _) fun _ => plain_pure _
  · exact plain_expressionSightings _
  · refine FailsOnly.bind (plain_expressionSightings _) fun _ => ?_
    refine FailsOnly.bind (plain_declaredName _) fun _ => ?_
    dsimp only
    split
    · exact FailsOnly.bind (plain_declaredName _) fun _ => plain_pure _
    · exact FailsOnly.bind (plain_ok _) fun _ => plain_pure _
  · simp

theorem plain_analyze (allowed : List String) (body : Node) : Plain (Scope.analyze allowed body) :=
  FailsOnly.bind (Node.plain_survey plain_sightings body) fun _ => plain_pure _

end Scopes

namespace Definition

theorem plain_nodesBelow (n : Node) : Plain (nodesBelow n) := by
  unfold nodesBelow
  split
  · simp
  · simp
  · split <;> simp

theorem plain_readName (r : Reporter) (location : Location) (nodes : List Node) :
    Plain (readName r location nodes) := by
  unfold readName
  split
  · simp [Cause.cycle?]
  · refine FailsOnly.bind ?_ fun text => ?_
    · unfold textOf
      split <;> simp
    · split <;> simp [Cause.cycle?]

theorem plain_collectSlots (r : Reporter) (seen : List SlotDefinition) (visits : List Visit) :
    Plain (collectSlots r seen visits) := by
  induction visits generalizing seen with
  | nil => simp [collectSlots]
  | cons visit visits ih =>
    cases visit with
    | error f => simp [collectSlots]
    | ok p =>
      rw [collectSlots]
      refine FailsOnly.bind ?_ fun slot => ?_
      · exact FailsOnly.bind (Node.plain_slotName r p.slot) fun _ => plain_pure _
      · split
        · simp [Cause.cycle?]
        · exact ih _

theorem plain_checkScope (r : Reporter) (mode : ScopeMode) (name : String) (location : Location)
    (names : List String) : Plain (checkScope r mode name location names).result := by
  induction names with
  | nil => simp [checkScope]
  | cons external names ih =>
    cases mode with
    | off => simp [checkScope]
    | error => simp [checkScope, Cause.cycle?]
    | warn =>
      rw [checkScope]
      exact plain_run_bind (by simp) fun _ => ih

theorem plain_unescaped (usage : Option Usage) (scope : Scope) (body : Node) :
    Plain (unescaped usage scope body) := by
  cases usage with
  | none => simp [unescaped]
  | some usage =>
    refine FailsOnly.bind ?_ fun _ => plain_pure _
    unfold Node.unescape
    split
    · simp
    · refine FailsOnly.bind (Node.plain_survey (fun n => ?_) body) fun _ => plain_pure _
      unfold Node.derivedAttributes
      split <;> simp

theorem plain_ofNode (config : Config) (n : Node) : Plain (ofNode config n).result := by
  refine plain_run_bind (plain_nodesBelow n) fun nodes => ?_
  refine plain_run_bind (plain_readName _ _ nodes) fun name => ?_
  refine plain_run_bind (plain_collectSlots _ _ _) fun slots => ?_
  refine plain_run_bind (Node.plain_usage _) fun usage => ?_
  refine plain_run_bind (plain_analyze _ _) fun scope => ?_
  refine plain_run_bind (plain_checkScope _ _ _ _ _) fun _ => ?_
  exact plain_run_bind (plain_unescaped _ _ _) fun nodes => by simp

end Definition

namespace Detection

theorem plain_step (config : Config) (reg : Registry) (n : Node) :
    Plain (step {} config reg n).result := by
  unfold step
  split
  · refine plain_run_bind (Definition.plain_ofNode config n) fun d => ?_
    refine plain_run_bind ?_ fun added => ?_
    · rw [Run.result_lift]
      unfold Registry.register
      split <;> simp [Cause.cycle?]
    · split
      · exact plain_run_bind (by simp) fun _ => by simp
      · simp
  · split <;> simp

theorem plain_ofList (config : Config) (reg : Registry) (ns : List Node) :
    Plain (ofList {} config reg ns).outcome.result := by
  induction ns generalizing reg with
  | nil => simp [ofList]
  | cons n ns ih =>
    have first := plain_step config reg n
    rw [ofList]
    cases run : (step {} config reg n).result with
    | error e =>
      rw [run] at first
      exact failsOnly_error.2 (failsOnly_error.1 first)
    | ok next => exact ih next

end Detection

section Attributes

theorem plain_ofAttributes (attrs : List Attribute) : Plain (Bindings.ofAttributes attrs) := by
  unfold Bindings.ofAttributes
  generalize ([] : Bindings) = b
  induction attrs generalizing b with
  | nil => simp [Bindings.extend]
  | cons attr attrs ih =>
    rw [Bindings.extend]
    split
    · exact ih _
    · simp

theorem plain_sourceOf (v : Json) : Plain (Bindings.sourceOf v) := by
  unfold Bindings.sourceOf
  split <;> simp

theorem plain_objectStatement (name : String) (captured : List String) (pos : Position) (b : Bindings) :
    Plain (b.objectStatement name captured pos) := by
  refine FailsOnly.bind ?_ fun _ => plain_pure _
  refine FailsOnly.bind (failsOnly_mapM (fun entry => ?_) b) fun _ => plain_pure _
  exact FailsOnly.bind (plain_sourceOf entry.2) fun _ => plain_pure _

theorem plain_bindAround (b : Bindings) (usage : Option Usage) (pos : Position) (nodes : List Node) :
    Plain (b.bindAround usage pos nodes) := by
  cases usage with
  | none => simp [Bindings.bindAround]
  | some usage =>
    refine FailsOnly.bind ?_ fun captured => ?_
    · exact FailsOnly.bind (failsOnly_mapM (fun (entry : String × Json) => plain_sourceOf entry.2) _)
        fun _ => plain_pure _
    · refine FailsOnly.bind (plain_objectStatement _ _ _ _) fun first => ?_
      exact FailsOnly.bind (plain_objectStatement _ _ _ _) fun second => plain_pure _

theorem plain_injectAttributes (component : String) (usage : Option Usage) (b : Bindings)
    (pos : Position) (nodes : List Node) :
    Plain (injectAttributes component usage b pos nodes).result := by
  refine plain_run_bind (plain_bindAround b usage pos nodes) fun bound => ?_
  refine plain_run_bind (Node.plain_anyBelow _ _) fun spreading => ?_
  split
  · simp
  · split
    · simp
    · split <;> simp
    · exact plain_run_bind (by simp) fun _ => by simp

end Attributes

namespace Node

section Filling

variable {r : Reporter} {given : Filling}

theorem plain_fillDefault {block : Option Node} (below : ∀ b ∈ block, Plain (fillNode r given b)) :
    Plain (fillDefault r given block) := by
  unfold fillDefault
  split
  · simp
  · intro e h
    refine below _ rfl e ?_
    rw [fillNode, h]
    rfl
  · simp

theorem plain_fillOption {o : Option Node} (below : ∀ c ∈ o, Plain (fillNode r given c)) :
    Plain (fillOption r given o) := by
  cases o with
  | none => simp [fillOption]
  | some n => exact FailsOnly.bind (below n rfl) fun _ => plain_pure _

theorem plain_fillFile {file : Option Node} (below : ∀ c ∈ ast? file, Plain (fillNode r given c)) :
    Plain (fillFile r given file) := by
  unfold fillFile
  split
  · simp
  · exact FailsOnly.bind (plain_fillOption below) fun _ => plain_pure _
  · simp

variable (content : ∀ name part, given name = some part → Plain part)
include content

theorem plain_fillNodes_of {ns : List Node} (each : ∀ n ∈ ns, Plain (fillNode r given n))
    (below : ∀ n ∈ ns, ∀ c ∈ n.children, Plain (fillNode r given c)) : Plain (fillNodes r given ns) := by
  induction ns with
  | nil => simp [fillNodes]
  | cons n ns ih =>
    rw [List.forall_mem_cons] at each below
    have others := ih each.2 below.2
    cases n with
    | owner pos head block =>
      rw [fillNodes]
      split
      · refine FailsOnly.bind (plain_slotName r _) fun name => ?_
        cases found : given name with
        | some part =>
          exact FailsOnly.bind (content name part found) fun _ =>
            FailsOnly.bind others fun _ => plain_pure _
        | none =>
          have default := plain_fillDefault fun b hb => below.1 b (Option.mem_toList.2 hb)
          exact FailsOnly.bind default fun _ => FailsOnly.bind others fun _ => plain_pure _
      · exact FailsOnly.bind each.1 fun _ => FailsOnly.bind others fun _ => plain_pure _
    | _ =>
      simp only [fillNodes]
      exact FailsOnly.bind each.1 fun _ => FailsOnly.bind others fun _ => plain_pure _

theorem plain_fillNode (n : Node) :
    Plain (fillNode r given n) ∧ ∀ c ∈ n.children, Plain (fillNode r given c) := by
  induction n using childInduction with
  | step n ih =>
    have below : ∀ c ∈ n.children, Plain (fillNode r given c) := fun c hc => (ih c hc).1
    refine ⟨?_, below⟩
    cases n with
    | leaf => simp [fillNode]
    | seq pos head nodes =>
      rw [fillNode]
      exact FailsOnly.bind (plain_fillNodes_of content below fun n hn => (ih n hn).2)
        fun _ => plain_pure _
    | owner pos head block =>
      rw [fillNode]
      refine FailsOnly.bind (plain_callCheck _) fun isCall => ?_
      split
      · simp
      · exact FailsOnly.bind (plain_fillOption fun c hc => below c (Option.mem_toList.2 hc))
          fun _ => plain_pure _
    | fork pos head main alternate =>
      simp only [children, List.mem_append, Option.mem_toList] at below
      rw [fillNode]
      refine FailsOnly.bind (plain_fillOption fun c hc => below c (.inl hc)) fun _ => ?_
      exact FailsOnly.bind (plain_fillOption fun c hc => below c (.inr hc)) fun _ => plain_pure _
    | inclusion pos file block =>
      rw [fillNode]
      exact FailsOnly.bind (plain_fillFile fun c hc => below c (Option.mem_toList.2 hc))
        fun _ => plain_pure _
    | extension pos file =>
      rw [fillNode]
      exact FailsOnly.bind (plain_fillFile fun c hc => below c (Option.mem_toList.2 hc))
        fun _ => plain_pure _
    | rawInclusion => simp [fillNode]
    | fileReference => simp [fillNode]

theorem plain_fillNodes (ns : List Node) : Plain (fillNodes r given ns) :=
  plain_fillNodes_of content (fun n _ => (plain_fillNode content n).1)
    fun n _ => (plain_fillNode content n).2

end Filling

end Node

namespace Provided

variable {r : Reporter}

theorem plain_fill (p : Provided) (nodes : List Node) : Plain (p.fill r nodes) := by
  refine Node.plain_fillNodes ?_ nodes
  -- The content for a name is filled with content that is nested one level less deep.
  induction depthLimit with
  | zero =>
    intro name part found
    simp only [filling, Option.map_eq_some_iff] at found
    obtain ⟨_, -, rfl⟩ := found
    simp
  | succ depth ih =>
    intro name part found
    simp only [filling, Option.map_eq_some_iff] at found
    obtain ⟨content, -, rfl⟩ := found
    split
    · exact Node.plain_fillNodes ih _
    · simp

theorem plain_addSlots (provided : Provided) (slots : List Node) : Plain (addSlots r provided slots) := by
  induction slots generalizing provided with
  | nil => simp [addSlots]
  | cons slot slots ih =>
    rw [addSlots]
    refine FailsOnly.bind (Node.plain_slotName r slot) fun name => ?_
    split
    · simp [Cause.cycle?]
    · exact ih _

theorem plain_ofCall (call : Node) : Plain (ofCall r call) := by
  unfold ofCall
  split
  · simp
  · simp
  · split
    · refine FailsOnly.bind (plain_addSlots _ _) fun provided => ?_
      split
      · simp
      · split <;> simp [Cause.cycle?]
    · simp

theorem plain_check (defined : List String) (location : Location) (p : Provided) :
    Plain (p.check r defined location) := by
  unfold check
  split <;> simp [Cause.cycle?]

end Provided

theorem Expansion.plain_instantiate (x : Expansion) (d : Definition) (call : Node) :
    Plain (x.instantiate d call).result := by
  refine plain_run_bind (Provided.plain_ofCall call) fun provided => ?_
  have rest : ∀ bindings : Bindings, Plain (do
      let nodes ← injectAttributes d.name d.usage bindings call.pos d.nodes
      provided.check x.config.reporter d.slotNames call.location
      provided.fill x.config.reporter nodes : Recorded (List Node)).result := by
    intro bindings
    refine plain_run_bind (plain_injectAttributes _ _ _ _ _) fun nodes => ?_
    exact plain_run_bind (Provided.plain_check _ _ provided) fun _ => Provided.plain_fill provided nodes
  dsimp only
  split
  · exact plain_run_bind (plain_ofAttributes _) rest
  · exact plain_run_bind (plain_fault _) rest

end PugComponents

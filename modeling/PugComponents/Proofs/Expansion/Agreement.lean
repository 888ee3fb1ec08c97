import PugComponents.Expansion
import PugComponents.Proofs.Value

/-! What the expansion of a tree depends on. The options enter only into what failures report, and of a
component only its name, its nodes, its slot names and its declared keys are used, wherever it is
registered. So two expansions yield the same if they agree on these for every name. -/

namespace PugComponents

open Outcome

namespace Node

theorem toOption_slotName (r r' : Reporter) (n : Node) :
    (n.slotName r).toOption = (n.slotName r').toOption := by
  unfold slotName
  split
  · rfl
  · split
    · split <;> rfl
    · rfl

end Node

namespace Provided

variable (r r' : Reporter)

theorem toOption_addSlots (before : Provided) (slots : List Node) :
    (addSlots r before slots).toOption = (addSlots r' before slots).toOption := by
  induction slots generalizing before with
  | nil => rfl
  | cons slot slots ih =>
    rw [addSlots, addSlots, toOption_bind, toOption_bind, Node.toOption_slotName r r']
    refine Option.bind_congr fun name _ => ?_
    split
    · rfl
    · exact ih _

theorem toOption_ofCall (call : Node) : (ofCall r call).toOption = (ofCall r' call).toOption := by
  unfold ofCall
  split
  · rfl
  · rfl
  · split
    · rw [ofNodes, ofNodes, toOption_bind, toOption_bind, toOption_addSlots r r']
      refine Option.bind_congr fun provided _ => ?_
      split
      · rfl
      · split <;> rfl
    · rfl

theorem toOption_check (defined : List String) (location : Location) (p : Provided) :
    (p.check r defined location).toOption = (p.check r' defined location).toOption := by
  unfold check
  split <;> rfl

end Provided

namespace Node

variable {r r' : Reporter} {given given' : Filling}

def GivesSame (given given' : Filling) : Prop :=
  ∀ name, (given name).map Except.toOption = (given' name).map Except.toOption

variable (r r')

mutual

theorem toOption_fillNodes (same : GivesSame given given') :
    (ns : List Node) → (fillNodes r given ns).toOption = (fillNodes r' given' ns).toOption
  | [] => by simp only [fillNodes]
  | n :: ns => by
    have first := toOption_fillNode same n
    have others := toOption_fillNodes same ns
    cases n with
    | owner pos head block =>
      have default := toOption_fillDefault same block
      rw [fillNodes, fillNodes]
      split
      · rw [toOption_bind, toOption_bind, toOption_slotName r r']
        refine Option.bind_congr fun name _ => ?_
        have content := same name
        cases found : given name with
        | none =>
          rw [found, Option.map_none, eq_comm, Option.map_eq_none_iff] at content
          simp only [content, toOption_bind, default, others]
        | some part =>
          rw [found, Option.map_some, eq_comm, Option.map_eq_some_iff] at content
          obtain ⟨part', found', content⟩ := content
          simp only [found', toOption_bind, content, others]
      · simp only [toOption_bind, first, others]
    | _ => simp only [fillNodes, toOption_bind, first, others]
termination_by structural ns => ns

theorem toOption_fillNode (same : GivesSame given given') :
    (n : Node) → (fillNode r given n).toOption = (fillNode r' given' n).toOption
  | .leaf .. => by simp only [fillNode]
  | .seq pos head nodes => by
    simp only [fillNode, toOption_bind, toOption_fillNodes same nodes]
  | .owner pos head block => by
    rw [fillNode, fillNode, toOption_bind, toOption_bind]
    refine Option.bind_congr fun isCall _ => ?_
    split
    · rfl
    · simp only [toOption_bind, toOption_fillOption same block]
  | .fork pos head main alternate => by
    simp only [fillNode, toOption_bind, toOption_fillOption same main, toOption_fillOption same alternate]
  | .inclusion pos file block => by
    simp only [fillNode, toOption_bind, toOption_fillFile same file]
  | .extension pos file => by
    simp only [fillNode, toOption_bind, toOption_fillFile same file]
  | .rawInclusion .. => by simp only [fillNode]
  | .fileReference .. => by simp only [fillNode]
termination_by structural n => n

theorem toOption_fillOption (same : GivesSame given given') :
    (o : Option Node) → (fillOption r given o).toOption = (fillOption r' given' o).toOption
  | none => by simp only [fillOption]
  | some n => by simp only [fillOption, toOption_bind, toOption_fillNode same n]
termination_by structural o => o

theorem toOption_fillFile (same : GivesSame given given') :
    (file : Option Node) → (fillFile r given file).toOption = (fillFile r' given' file).toOption
  | none => by simp only [fillFile]
  | some (.fileReference _ _ _ ast) => by
    simp only [fillFile, toOption_bind, toOption_fillOption same ast]
  | some (.leaf ..) | some (.seq ..) | some (.owner ..) | some (.fork ..) | some (.inclusion ..)
  | some (.extension ..) | some (.rawInclusion ..) => by simp only [fillFile]
termination_by structural file => file

theorem toOption_fillDefault (same : GivesSame given given') :
    (block : Option Node) → (fillDefault r given block).toOption = (fillDefault r' given' block).toOption
  | none => by simp only [fillDefault]
  | some (.seq _ _ nodes) => by simp only [fillDefault, toOption_fillNodes same nodes]
  | some (.leaf ..) | some (.owner ..) | some (.fork ..) | some (.inclusion ..)
  | some (.extension ..) | some (.rawInclusion ..) | some (.fileReference ..) => by
    simp only [fillDefault]
termination_by structural block => block

end

end Node

namespace Provided

variable (r r' : Reporter)

theorem givesSame_filling (p : Provided) (depth : Nat) :
    Node.GivesSame (p.filling r depth) (p.filling r' depth) := by
  induction depth with
  | zero => exact fun name => rfl
  | succ depth ih =>
    intro name
    simp only [filling, Option.map_map]
    refine congrArg (fun f => (p.lookup name).map f) (funext fun content => ?_)
    simp only [Function.comp_apply]
    split
    · exact Node.toOption_fillNodes r r' ih _
    · rfl

theorem toOption_fill (p : Provided) (nodes : List Node) :
    (p.fill r nodes).toOption = (p.fill r' nodes).toOption :=
  Node.toOption_fillNodes r r' (givesSame_filling r r' p depthLimit) nodes

end Provided

/-- What expansion uses of a definition is the same. -/
structure Interchangeable (d d' : Definition) : Prop where
  name : d'.name = d.name
  nodes : d'.nodes = d.nodes
  slotNames : d'.slotNames = d.slotNames
  usage : d'.usage = d.usage

theorem Interchangeable.refl (d : Definition) : Interchangeable d d := ⟨rfl, rfl, rfl, rfl⟩

/-- Under every name there are interchangeable components. -/
def Registry.Agrees (reg reg' : Registry) : Prop :=
  ∀ name, Option.Rel Interchangeable (reg.get? name) (reg'.get? name)

theorem bind_eq_of_rel {α β γ : Type} {R : α → β → Prop} {o : Option α} {o' : Option β}
    {f : α → Option γ} {g : β → Option γ} (h : Option.Rel R o o') (same : ∀ a b, R a b → f a = g b) :
    o.bind f = o'.bind g := by
  cases h with
  | none => rfl
  | some related => exact same _ _ related

namespace Node

variable {call call' : Node → Recorded (List Node)}

theorem value?_replaceCalls (same : ∀ m, (call m).value? = (call' m).value?) (ns : List Node) :
    (replaceCalls call ns).value? = (replaceCalls call' ns).value? := by
  induction ns with
  | nil => rfl
  | cons n ns ih =>
    rw [replaceCalls, replaceCalls, Run.value?_bind, Run.value?_bind]
    refine Option.bind_congr fun isCall _ => ?_
    split
    · simp only [Run.value?_bind, same, ih]
    · simp only [Run.value?_bind, ih]

mutual

theorem value?_expandNode (same : ∀ m, (call m).value? = (call' m).value?) :
    (n : Node) → (expandNode call n).value? = (expandNode call' n).value?
  | .leaf .. => by simp only [expandNode]
  | .seq pos head nodes => by
    simp only [expandNode, Run.value?_bind, value?_expandAll same nodes, value?_replaceCalls same]
  | .owner pos head block => by
    simp only [expandNode, Run.value?_bind, value?_expandOption same block]
  | .fork pos head main alternate => by
    simp only [expandNode, Run.value?_bind, value?_expandOption same main,
      value?_expandOption same alternate]
  | .inclusion pos file block => by
    simp only [expandNode, Run.value?_bind, value?_expandFile same file]
  | .extension pos file => by
    simp only [expandNode, Run.value?_bind, value?_expandFile same file]
  | .rawInclusion .. => by simp only [expandNode]
  | .fileReference .. => by simp only [expandNode]
termination_by structural n => n

theorem value?_expandAll (same : ∀ m, (call m).value? = (call' m).value?) :
    (ns : List Node) → (expandAll call ns).value? = (expandAll call' ns).value?
  | [] => by simp only [expandAll]
  | n :: ns => by
    simp only [expandAll, Run.value?_bind, value?_expandNode same n, value?_expandAll same ns]
termination_by structural ns => ns

theorem value?_expandOption (same : ∀ m, (call m).value? = (call' m).value?) :
    (o : Option Node) → (expandOption call o).value? = (expandOption call' o).value?
  | none => by simp only [expandOption]
  | some n => by simp only [expandOption, Run.value?_bind, value?_expandNode same n]
termination_by structural o => o

theorem value?_expandFile (same : ∀ m, (call m).value? = (call' m).value?) :
    (file : Option Node) → (expandFile call file).value? = (expandFile call' file).value?
  | none => by simp only [expandFile]
  | some (.fileReference _ _ _ ast) => by
    simp only [expandFile, Run.value?_bind, value?_expandOption same ast]
  | some (.leaf ..) | some (.seq ..) | some (.owner ..) | some (.fork ..) | some (.inclusion ..)
  | some (.extension ..) | some (.rawInclusion ..) => by simp only [expandFile]
termination_by structural file => file

end

theorem value?_expandBlock (same : ∀ m, (call m).value? = (call' m).value?) (ns : List Node) :
    (expandBlock call ns).value? = (expandBlock call' ns).value? := by
  simp only [expandBlock, Run.value?_bind, value?_expandAll same ns, value?_replaceCalls same]

end Node

namespace Expansion

variable {x x' : Expansion}

theorem target_rel {S : Definition → Definition → Prop}
    (related : ∀ name, Option.Rel S (x.registry.get? name) (x'.registry.get? name))
    (stack : List String) {call call' : Node} (named : call'.targetName = call.targetName) :
    Option.Rel S (x.target stack call).toOption (x'.target stack call').toOption := by
  rw [target, target, named]
  cases call.targetName with
  | error e => exact .none
  | ok name =>
    simp only [bind, Except.bind]
    split
    · exact .none
    · have found := related name
      generalize x.registry.get? name = here at found ⊢
      generalize x'.registry.get? name = there at found ⊢
      cases found with
      | none => exact .none
      | some same => exact .some same

theorem value?_instantiate (x x' : Expansion) {d d' : Definition} (same : Interchangeable d d')
    (call : Node) : (x.instantiate d call).value? = (x'.instantiate d' call).value? := by
  rw [instantiate, instantiate, Run.value?_bind, Run.value?_bind, Run.value?_lift, Run.value?_lift,
    Provided.toOption_ofCall x.config.reporter x'.config.reporter]
  refine Option.bind_congr fun provided _ => ?_
  split <;>
    simp only [Run.value?_bind, Run.value?_lift, same.name, same.nodes, same.slotNames, same.usage,
      Provided.toOption_check x.config.reporter x'.config.reporter,
      Provided.toOption_fill x.config.reporter x'.config.reporter]

@[simp] theorem value?_announce (x : Expansion) (stack : List String) (d : Definition) (call : Node) :
    (x.announce stack d call).value? = some () := by
  unfold announce
  split <;> rfl

/-- What takes the place of a call depends on the components that are registered, and neither on the
options nor on the order in which the components are registered. -/
theorem value?_expandCall (agrees : x.registry.Agrees x'.registry) (depth : Nat) (stack : List String)
    (call : Node) :
    (x.expandCall depth stack call).value? = (x'.expandCall depth stack call).value? := by
  induction depth generalizing stack call with
  | zero =>
    rw [expandCall, expandCall, Run.value?_bind, Run.value?_bind]
    refine bind_eq_of_rel (target_rel agrees stack rfl) fun d d' same => ?_
    simp only [Run.value?_bind, value?_announce, value?_instantiate x x' same, Run.value?_fail]
  | succ depth ih =>
    rw [expandCall, expandCall, Run.value?_bind, Run.value?_bind]
    refine bind_eq_of_rel (target_rel agrees stack rfl) fun d d' same => ?_
    simp only [Run.value?_bind, value?_announce, value?_instantiate x x' same, same.name]
    congr 1
    funext _
    refine Option.bind_congr fun nodes _ => ?_
    exact Node.value?_expandBlock (fun m => ih (stack ++ [d.name]) m) nodes

theorem value?_tree (agrees : x.registry.Agrees x'.registry) (stack : List String) (n : Node) :
    (x.tree stack n).value? = (x'.tree stack n).value? :=
  Node.value?_expandNode (value?_expandCall agrees depthLimit stack) n

end Expansion

end PugComponents

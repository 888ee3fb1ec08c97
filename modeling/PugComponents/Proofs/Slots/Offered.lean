import PugComponents.Proofs.Definition.Slots
import Mathlib.Data.Set.Finite.Basic

/-! What content does for a body depends on the slots that the body offers. Filling looks up the names
of the slots outside of calls and no others, and these are the names that are collected: content
under one of them takes the place of a slot, and content under any other name changes nothing. -/

namespace PugComponents

open Node Outcome

variable {r : Reporter}

namespace Node

variable {given given' : Filling}

def GivesAlike (r : Reporter) (given given' : Filling) (n : Node) : Prop :=
  ∀ s ∈ n.walkUntil isCall, s.isSlot = true → ∀ name, s.slotName r = .ok name →
    given name = given' name

theorem GivesAlike.of_mem_children {n c : Node} (h : GivesAlike r given given' n)
    (notCall : n.isCall = false) (hc : c ∈ n.children) : GivesAlike r given given' c :=
  fun s hs => h s (mem_walkUntil_step.2 (.inr ⟨notCall, c, hc, hs⟩))

mutual

theorem fillNodes_congr : (ns : List Node) → (∀ n ∈ ns, GivesAlike r given given' n) →
    fillNodes r given ns = fillNodes r given' ns
  | [], _ => rfl
  | n :: ns, alike => by
    rw [List.forall_mem_cons] at alike
    have first := fillNode_congr n alike.1
    have others := fillNodes_congr ns alike.2
    cases n with
    | owner pos head block =>
      rw [fillNodes, fillNodes]
      split
      · rename_i marked
        cases named : (owner pos head block).slotName r with
        | error e => rfl
        | ok name =>
          have content := alike.1 _ (self_mem_walkUntil _ _) marked name named
          have default := fillDefault_congr block fun c hc =>
            alike.1.of_mem_children (isCall_eq_false_of_isSlot marked) (Option.mem_toList.2 hc)
          simp only [bind, Except.bind, content, default, others]
      · rw [first, others]
    | _ => simp only [fillNodes, first, others]
termination_by structural ns => ns

theorem fillNode_congr : (n : Node) → GivesAlike r given given' n →
    fillNode r given n = fillNode r given' n
  | .leaf .., _ => rfl
  | .seq pos head nodes, alike => by
    rw [fillNode, fillNode, fillNodes_congr nodes fun c hc => alike.of_mem_children rfl hc]
  | .owner pos head block, alike => by
    rw [fillNode, fillNode]
    cases check : (owner pos head block).callCheck with
    | error e => rfl
    | ok isCall =>
      cases isCall with
      | true => rfl
      | false =>
        have notCall := isCall_eq_of_callCheck check
        rw [fillOption_congr block fun c hc => alike.of_mem_children notCall (Option.mem_toList.2 hc)]
  | .fork pos head main alternate, alike => by
    rw [fillNode, fillNode,
      fillOption_congr main fun c hc => alike.of_mem_children rfl (by simp_all [children]),
      fillOption_congr alternate fun c hc => alike.of_mem_children rfl (by simp_all [children])]
  | .inclusion pos file block, alike => by
    rw [fillNode, fillNode,
      fillFile_congr file fun c hc => alike.of_mem_children rfl (Option.mem_toList.2 hc)]
  | .extension pos file, alike => by
    rw [fillNode, fillNode,
      fillFile_congr file fun c hc => alike.of_mem_children rfl (Option.mem_toList.2 hc)]
  | .rawInclusion .., _ => rfl
  | .fileReference .., _ => rfl
termination_by structural n => n

theorem fillOption_congr : (o : Option Node) → (∀ c ∈ o, GivesAlike r given given' c) →
    fillOption r given o = fillOption r given' o
  | none, _ => rfl
  | some n, alike => by rw [fillOption, fillOption, fillNode_congr n (alike n rfl)]
termination_by structural o => o

theorem fillFile_congr : (file : Option Node) → (∀ c ∈ ast? file, GivesAlike r given given' c) →
    fillFile r given file = fillFile r given' file
  | some (.fileReference pos path fullPath ast), alike => by
    rw [fillFile, fillFile, fillOption_congr ast alike]
  | none, _ | some (.leaf ..), _ | some (.seq ..), _ | some (.owner ..), _ | some (.fork ..), _
  | some (.inclusion ..), _ | some (.extension ..), _ | some (.rawInclusion ..), _ => by
    simp only [fillFile]
termination_by structural file => file

theorem fillDefault_congr : (o : Option Node) → (∀ c ∈ o, GivesAlike r given given' c) →
    fillDefault r given o = fillDefault r given' o
  | some (.seq pos head nodes), alike => by
    rw [fillDefault, fillDefault,
      fillNodes_congr nodes fun c hc => (alike _ rfl).of_mem_children rfl hc]
  | none, _ | some (.leaf ..), _ | some (.owner ..), _ | some (.fork ..), _
  | some (.inclusion ..), _ | some (.extension ..), _ | some (.rawInclusion ..), _
  | some (.fileReference ..), _ => by simp only [fillDefault]
termination_by structural o => o

end

/-- Above a slot outside of calls, or at it, there is a slot that filling comes to and for which content
is given, if content is given for the lower one. -/
theorem exists_reached_slot {n s : Node} {name : String} (hs : s ∈ n.walkUntil isCall)
    (isSlot : s.isSlot = true) (named : s.slotName r = .ok name) (has : given.has name = true) :
    ∃ s' ∈ n.walkUntil (endsFilling r given.has), s'.isSlot = true ∧
      ∃ name', s'.slotName r = .ok name' ∧ given.has name' = true := by
  induction n using childInduction with
  | step n ih =>
    by_cases ends : n.endsFilling r given.has = true
    · refine ⟨n, self_mem_walkUntil _ n, ?_⟩
      by_cases isCall : n.isCall = true
      · -- Nothing below a call is outside of calls.
        rcases mem_walkUntil_step.1 hs with rfl | ⟨notCall, -⟩
        · exact ⟨isSlot, name, named, has⟩
        · simp [isCall] at notCall
      · simp only [endsFilling, isCall, Bool.false_or, Bool.and_eq_true] at ends
        refine ⟨ends.1, ?_⟩
        cases named' : n.slotName r with
        | error e => simp [named'] at ends
        | ok name' => exact ⟨name', rfl, by simpa [named'] using ends.2⟩
    · rcases mem_walkUntil_step.1 hs with rfl | ⟨-, c, hc, hs⟩
      · simp [endsFilling, isSlot, named, has] at ends
      · obtain ⟨s', reached, rest⟩ := ih c hc hs
        exact ⟨s', mem_walkUntil_step.2 (.inr ⟨by simpa using ends, c, hc, reached⟩), rest⟩

theorem exists_fillNodes {ns : List Node} (wf : ∀ n ∈ ns, n.isWellFormed = true)
    (named : ∀ n ∈ ns, ∀ s ∈ n.walkUntil isCall, s.isSlot = true → ∃ name, s.slotName r = .ok name)
    (content : ∀ name e, given name ≠ some (.error e)) : ∃ out, fillNodes r given ns = .ok out := by
  cases run : fillNodes r given ns with
  | ok out => exact ⟨out, rfl⟩
  | error e =>
    obtain ⟨n, hn, s, reached, isSlot, fails⟩ := exists_failsToFill wf run
    have coarser : ∀ n : Node, n.isCall = true → n.endsFilling r given.has = true := by
      intro n isCall
      simp [endsFilling, isCall]
    obtain ⟨name, ok⟩ := named n hn s (mem_walkUntil_of_imp coarser reached) isSlot
    rcases fails with fails | ⟨name', -, failed⟩
    · rw [ok] at fails
      cases fails
    · exact absurd failed (content name' e)

theorem exists_mem_of_given {n n' m : Node} {name : String} (wf : n.isWellFormed = true)
    (isBlock : n.isBlock = true) (run : fillNode r given n = .ok n')
    (given_eq : ∀ name', given name' = if name' = name then some (.ok [m]) else none)
    {s : Node} (hs : s ∈ n.walkUntil isCall) (isSlot : s.isSlot = true)
    (named : s.slotName r = .ok name) : ∃ k ∈ n'.children, m ∈ k.walk := by
  have has : given.has name = true := by simp [Filling.has, given_eq]
  have untagged := tag?_of_isBlock isBlock
  have notSlot := isSlot_eq_false_of_tag? untagged
  obtain ⟨s', reached, isSlot', name', named', has'⟩ := exists_reached_slot hs isSlot named has
  obtain rfl : name' = name := by
    by_contra other
    simp [Filling.has, given_eq, other] at has'
  rcases mem_walkUntil_step.1 reached with rfl | ⟨goesOn, c, hc, reached⟩
  · simp [notSlot] at isSlot'
  have tagged : s'.tag? ≠ none := fun untagged => by
    simp [isSlot_eq_false_of_tag? untagged] at isSlot'
  obtain ⟨part, filled, place⟩ := (exists_filled_of_reached n wf).1 n' run goesOn c hc s' reached tagged
  have part_eq : part = [m] := by
    cases filled with
    | provided _ named'' content =>
      cases Except.ok.inj (named'.symm.trans named'')
      simpa [given_eq, eq_comm] using content
    | empty _ named'' absent | default _ named'' absent =>
      cases Except.ok.inj (named'.symm.trans named'')
      simp [given_eq] at absent
    | other notSlot => simp [isSlot'] at notSlot
  exact place m (by simp [part_eq])

end Node

namespace Provided

theorem filling_nil (depth : Nat) (name : String) : filling r [] depth name = none := by
  cases depth <;> rfl

theorem filling_of_ne {name name' : String} (other : name' ≠ name) (content : Node) (depth : Nat) :
    filling r [(name, content)] depth name' = none := by
  cases depth <;> simp [filling, List.lookup_cons, beq_false_of_ne other]

theorem filling_single {m : Node} (wf : m.isWellFormed = true) (free : m.SlotFree) (name : String)
    (pos : Position) (depth : Nat) (name' : String) :
    filling r [(name, block pos [m])] (depth + 1) name' =
      if name' = name then some (.ok [m]) else none := by
  have same : ∀ given, fillNodes r given [m] = .ok [m] := fun given =>
    fillNodes_eq_self (by simpa using wf) (by simpa using free)
  split
  · rename_i eq
    simp [filling, eq, block, nodes?, same]
  · rename_i other
    exact filling_of_ne other _ _

theorem fill_of_absent {body : Node} (notCall : body.isCall = false) {name : String}
    (absent : ∀ s ∈ body.walkUntil isCall, s.isSlot = true → s.slotName r ≠ .ok name)
    (content : Node) : fill r [(name, content)] body.children = fill r [] body.children := by
  refine fillNodes_congr _ fun c hc s hs isSlot name' named => ?_
  have other : name' ≠ name := by
    rintro rfl
    exact absent s (mem_walkUntil_step.2 (.inr ⟨notCall, c, hc, hs⟩)) isSlot named
  rw [filling_of_ne other, filling_nil]

theorem check_eq_error_iff (defined : List String) (location : Location) (name : String)
    (content : Node) : (∃ e, check r defined location [(name, content)] = .error e) ↔
      name ≠ defaultSlot ∧ name ∉ defined := by
  by_cases isDefault : name = defaultSlot
  · simp [check, isDefault]
  · by_cases member : name ∈ defined
    · simp [check, member]
    · simp [check, member, bne, beq_false_of_ne isDefault, isDefault]

end Provided

namespace Node

theorem exists_fresh (ns : List Node) :
    ∃ m : Node, m.isWellFormed = true ∧ m.SlotFree ∧ ∀ n ∈ ns, m ∉ n.walk := by
  have injective : Function.Injective fun k : Nat =>
      Node.leaf {} (.text (.str (String.ofList (List.replicate k 'x')))) := by
    intro k k' same
    simp only [leaf.injEq, Leaf.text.injEq, Json.str.injEq, String.ofList_inj, true_and] at same
    simpa using congrArg List.length same
  obtain ⟨_, ⟨k, rfl⟩, fresh⟩ :=
    (Set.infinite_range_of_injective injective).exists_notMem_finite (ns.flatMap walk).finite_toSet
  refine ⟨_, rfl, ?_, fun n hn member => fresh (List.mem_flatMap.2 ⟨n, hn, member⟩)⟩
  exact slotFree_of_children rfl (by simp [children])

end Node

section Offering

open Definition

variable {body : Node} (wf : body.isWellFormed = true) {slots : List SlotDefinition}
  (collected : collectSlots r [] (body.placeholders []) = .ok slots)
include wf collected

theorem exists_fill_of_collected (notCall : body.isCall = false) {p : Provided}
    (sound : ∀ name e, p.filling r Provided.depthLimit name ≠ some (.error e)) :
    ∃ out, p.fill r body.children = .ok out :=
  exists_fillNodes (fun _ hc => isWellFormed_of_mem_children wf hc)
    (fun c hc s hs => exists_slotName_of_collected wf collected s
      (mem_walkUntil_step.2 (.inr ⟨notCall, c, hc, hs⟩))) sound

theorem fill_of_not_offered (notCall : body.isCall = false) {name : String}
    (absent : name ∉ (firstOfName slots).map (·.name)) (content : Node) :
    Provided.fill r [(name, content)] body.children = Provided.fill r [] body.children :=
  Provided.fill_of_absent notCall
    (fun s hs isSlot named => absent ((mem_names_iff wf collected).2 ⟨s, hs, isSlot, named⟩)) content

/-- A marker without slots can be provided under every name, and is put where a slot of that name is. -/
theorem exists_fill_marker (isBlock : body.isBlock = true) (name : String) (pos : Position) {m : Node}
    (wfm : m.isWellFormed = true) (free : m.SlotFree) :
    ∃ out, Provided.fill r [(name, block pos [m])] body.children = .ok out ∧
      (name ∈ (firstOfName slots).map (·.name) → ∃ k ∈ out, m ∈ k.walk) := by
  have given_eq : ∀ name', Provided.filling r [(name, block pos [m])] Provided.depthLimit name' =
      if name' = name then some (.ok [m]) else none := Provided.filling_single wfm free name pos 199
  have sound : ∀ name' e, Provided.filling r [(name, block pos [m])] Provided.depthLimit name' ≠
      some (.error e) := by
    intro name' e
    rw [given_eq]
    split <;> simp
  have notCall := isCall_eq_false_of_tag? (tag?_of_isBlock isBlock)
  obtain ⟨out, run⟩ := exists_fill_of_collected wf collected notCall sound
  refine ⟨out, run, fun member => ?_⟩
  obtain ⟨s, hs, isSlot, name_eq⟩ := (mem_names_iff wf collected).1 member
  obtain ⟨pos, head, nodes, rfl⟩ := exists_seq_of_isBlock isBlock
  exact exists_mem_of_given wf isBlock (fillNode_seq run) given_eq hs isSlot name_eq

end Offering

open Definition in
/-- Detection and filling agree on the slots of a body. A marker that has no slots itself, and that the
body filled with nothing does not have, is put into the result exactly if its name is among those
that are collected. So what is refused under a name other than the default one is content that would
have no effect, whatever it is. -/
theorem agreement_of_collected {body : Node} (isBlock : body.isBlock = true)
    (wf : body.isWellFormed = true) {slots : List SlotDefinition}
    (collected : collectSlots r [] (body.placeholders []) = .ok slots) (name : String) :
    ∃ base, Provided.fill r [] body.children = .ok base ∧
      (∀ pos (m : Node), m.isWellFormed = true → m.SlotFree → (∀ k ∈ base, m ∉ k.walk) →
        ∃ out, Provided.fill r [(name, block pos [m])] body.children = .ok out ∧
          ((∃ k ∈ out, m ∈ k.walk) ↔ name ∈ (firstOfName slots).map (·.name))) ∧
      ∀ location content,
        ((∃ e, Provided.check r ((firstOfName slots).map (·.name)) location [(name, content)] =
            .error e) ↔
          name ≠ defaultSlot ∧
            ∀ content', Provided.fill r [(name, content')] body.children = .ok base) := by
  have notCall := isCall_eq_false_of_tag? (tag?_of_isBlock isBlock)
  obtain ⟨base, plain⟩ : ∃ base, Provided.fill r [] body.children = .ok base :=
    exists_fill_of_collected wf collected notCall fun name e => by simp [Provided.filling_nil]
  have ignored : name ∉ (firstOfName slots).map (·.name) → ∀ content',
      Provided.fill r [(name, content')] body.children = .ok base := by
    intro absent content'
    rw [fill_of_not_offered wf collected notCall absent, plain]
  refine ⟨base, plain, ?_, ?_⟩
  · intro pos m wfm free fresh
    obtain ⟨out, run, member⟩ := exists_fill_marker wf collected isBlock name pos wfm free
    refine ⟨out, run, ?_, member⟩
    rintro ⟨k, hk, hm⟩
    by_contra absent
    rw [ignored absent] at run
    cases run
    exact fresh k hk hm
  · intro location content
    rw [Provided.check_eq_error_iff]
    refine and_congr_right fun _ => ⟨ignored, fun effectless member => ?_⟩
    obtain ⟨m, wfm, free, fresh⟩ := exists_fresh base
    obtain ⟨out, run, inside⟩ := exists_fill_marker wf collected isBlock name {} wfm free
    rw [effectless] at run
    cases run
    obtain ⟨k, hk, hm⟩ := inside member
    exact fresh k hk hm

def marker : Node := .leaf {} (.text (.str "marker"))

theorem agreement_slottedBody : ∃ out,
    Provided.fill {} [("head", block {} [marker])] slottedBody.children = .ok out ∧
      ∃ k ∈ out, marker ∈ k.walk := by
  obtain ⟨slots, collected⟩ : ∃ slots,
      Definition.collectSlots {} [] (slottedBody.placeholders []) = .ok slots :=
    exists_ok_of_isOk (by decide +kernel)
  obtain ⟨base, plain, effect, -⟩ :=
    agreement_of_collected rfl (by decide +kernel) collected "head"
  have names : (Definition.collectSlots {} [] (slottedBody.placeholders [])).toOption.map
      (fun slots => (Definition.firstOfName slots).map (·.name)) = some ["head", "foot"] := by
    decide +kernel
  have noText : (Provided.fill {} [] slottedBody.children).toOption.all
      (fun base => base.all fun k => k.walk.all fun n => !Definition.isText n) = true := by
    decide +kernel
  rw [collected, Except.toOption, Option.map_some, Option.some.injEq] at names
  simp only [plain, Except.toOption, Option.all_some, List.all_eq_true, Bool.not_eq_true'] at noText
  obtain ⟨out, run, found⟩ := effect {} marker (by decide +kernel)
    (slotFree_of_children rfl (by simp [marker, children])) fun k hk hm => by
      have isText := noText k hk marker hm
      cases isText
  exact ⟨out, run, found.2 (by simp [names])⟩

/-- A slot that is provided for another one gives way in its turn. Content for the default slot is not
refused by a body that has no such slot. -/
theorem disagreement_nestedSlot :
    (block {} [namedSlot "head" []]).isWellFormed = true ∧
    (∃ slots, Definition.collectSlots {} [] ((block {} [namedSlot "head" []]).placeholders []) =
        .ok slots ∧ (Definition.firstOfName slots).map (·.name) = ["head"]) ∧
    namedSlot "foot" [] ∉ (block {} [namedSlot "head" []]).walk ∧
    Provided.fill {} [("head", block {} [namedSlot "foot" []])] [namedSlot "head" []] = .ok [] ∧
    Provided.check {} ["head"] {} [(defaultSlot, block {} [marker])] = .ok () ∧
    Provided.fill {} [(defaultSlot, block {} [marker])] [namedSlot "head" []] = .ok [] ∧
    Provided.fill {} [] [namedSlot "head" []] = .ok [] := by
  refine ⟨by decide +kernel, ?_, ?_, rfl, rfl, rfl, rfl⟩
  · exact ⟨_, rfl, rfl⟩
  · simp [block, namedSlot, walk, walkAll, walkOption]

end PugComponents

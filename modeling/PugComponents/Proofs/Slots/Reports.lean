import PugComponents.Proofs.Reports
import PugComponents.Proofs.Slots.Filling

/-! How reading and filling the slots of well-formed nodes can fail. A slot whose name is no text is
reported at the slot, content that is given twice at the slot or at the call, and content for a slot that
the component does not have at the call. Filling fails besides if content is replaced inside content
deeper than is allowed; `Nests` says what that means for the content itself. -/

namespace PugComponents

open Node Outcome

variable {r : Reporter} {e : Failure}

namespace Node

theorem reports_of_slotName {n : Node} (isSlot : n.isSlot = true) (h : n.slotName r = .error e) :
    e.Reports r n := by
  obtain ⟨pos, element, block, rfl, -⟩ := exists_tag_of_isTagNamed isSlot
  simp only [slotName, attrs?] at h
  split at h
  · split at h
    · cases h
    · cases h
      exact Failure.reports_location (.inr isSlot)
  · split at h <;> cases h

theorem isBlock_of_mem_tag {pos : Position} {element : Element} {block : Option Node}
    (wf : (owner pos (.tag element) block).isWellFormed = true) :
    ∀ b ∈ block, ∃ pos' head nodes, b = .seq pos' head nodes :=
  fun b hb => exists_seq_of_isBlock ((isWellFormed_owner.1 wf).2.2.2 b hb).1

end Node

namespace Provided

theorem reports_of_addSlots {before : Provided} {slots : List Node}
    (all : ∀ s ∈ slots, s.isSlot = true) (h : addSlots r before slots = .error e) :
    ∃ s ∈ slots, e.Reports r s := by
  induction slots generalizing before with
  | nil => cases h
  | cons slot slots ih =>
    rw [List.forall_mem_cons] at all
    rw [addSlots, bind_eq_error] at h
    rcases h with h | ⟨name, -, h⟩
    · exact ⟨slot, by simp, reports_of_slotName all.1 h⟩
    · split at h
      · cases h
        exact ⟨slot, by simp, Failure.reports_location (.inl all.1)⟩
      · obtain ⟨s, hs, reports⟩ := ih all.2 h
        exact ⟨s, List.mem_cons_of_mem _ hs, reports⟩

theorem reportsIn_of_ofCall {call : Node} (isCall : call.isCall = true)
    (wf : call.isWellFormed = true) (h : ofCall r call = .error e) : e.ReportsIn r call := by
  obtain ⟨pos, element, block, rfl⟩ := exists_tag_of_isCall isCall
  cases block with
  | none => cases h
  | some b =>
    obtain ⟨pos', head, nodes, rfl⟩ := isBlock_of_mem_tag wf b rfl
    simp only [ofCall, block?, nodes?, ofNodes] at h
    rcases bind_eq_error.1 h with h | ⟨provided, -, h⟩
    · have all : ∀ s ∈ nodes.filter isSlot, s.isSlot = true := fun s hs => (List.mem_filter.1 hs).2
      obtain ⟨s, hs, reports⟩ := reports_of_addSlots all h
      have inside : s ∈ (seq pos' head nodes).walk :=
        mem_walk_of_mem_children (List.mem_of_mem_filter hs) (self_mem_walk s)
      exact ⟨s, mem_walk_of_mem_children (by simp [children]) inside, reports⟩
    · split at h
      · cases h
      · split at h
        · cases h
          exact ⟨_, self_mem_walk _, Failure.reports_location (.inr isCall)⟩
        · cases h

theorem reports_of_check {p : Provided} {defined : List String} {call : Node}
    (isCall : call.isCall = true) (h : p.check r defined call.location = .error e) :
    e.Reports r call := by
  unfold check at h
  split at h
  · cases h
    exact Failure.reports_location isCall
  · cases h

theorem nodes?_of_mem {p : Provided} {call : Node} (isCall : call.isCall = true)
    (wf : call.isWellFormed = true) (h : ofCall r call = .ok p) :
    ∀ entry ∈ p, entry.2.nodes? = some entry.2.children := by
  refine forall_mem_ofCall (Q := fun n => n.nodes? = some n.children) isCall h ?_ fun _ _ _ _ => rfl
  intro b hb n hn isSlot
  have wfn := isWellFormed_of_mem_children (isWellFormed_of_mem_children wf hb) hn
  obtain ⟨pos, element, block, rfl, -⟩ := exists_tag_of_isTagNamed isSlot
  cases block with
  | none => rfl
  | some inner =>
    obtain ⟨pos', head, nodes, rfl⟩ := isBlock_of_mem_tag wfn inner rfl
    rfl

theorem stemsFrom_of_mem {p : Provided} {call page : Node} (isCall : call.isCall = true)
    (stems : page.StemsFrom call) (h : ofCall r call = .ok p) :
    ∀ entry ∈ p, page.StemsFrom entry.2 :=
  inherited_of_mem (inherited_stemsFrom page) (fun _ _ => stemsFrom_block) isCall
    (fun _ hc => stems.of_mem_children hc) h

end Provided

def Filling.has (given : Filling) (name : String) : Bool := (given name).isSome

namespace Node

variable {given : Filling}

/-- What filling does not look into: calls, and slots that give way to content for their names. -/
def endsFilling (r : Reporter) (has : String → Bool) (n : Node) : Bool :=
  n.isCall || n.isSlot && match n.slotName r with
    | .ok name => has name
    | .error _ => false

theorem endsFilling_eq_false {has : String → Bool} {n : Node} (notCall : n.isCall = false)
    (notSlot : n.isSlot = false) : n.endsFilling r has = false := by
  simp [endsFilling, notCall, notSlot]

theorem endsFilling_eq_false_of_absent {has : String → Bool} {n : Node} {name : String}
    (isSlot : n.isSlot = true) (named : n.slotName r = .ok name) (absent : has name = false) :
    n.endsFilling r has = false := by
  simp [endsFilling, isCall_eq_false_of_isSlot isSlot, named, absent]

/-- A slot that has no name, or the content given for which has failed. -/
def FailsToFill (r : Reporter) (given : Filling) (e : Failure) (m : Node) : Prop :=
  m.isSlot = true ∧
    (m.slotName r = .error e ∨ ∃ name, m.slotName r = .ok name ∧ given name = some (.error e))

def FailsBelow (r : Reporter) (given : Filling) (e : Failure) (n : Node) : Prop :=
  ∃ c ∈ n.children, ∃ m ∈ c.walkUntil (endsFilling r given.has), FailsToFill r given e m

theorem exists_of_failsBelow {n : Node} (h : FailsBelow r given e n)
    (goesOn : n.endsFilling r given.has = false) :
    ∃ m ∈ n.walkUntil (endsFilling r given.has), FailsToFill r given e m := by
  obtain ⟨c, hc, m, hm, fails⟩ := h
  exact ⟨m, mem_walkUntil_step.2 (.inr ⟨goesOn, c, hc, hm⟩), fails⟩

theorem fillOption_eq_error {o : Option Node} (h : fillOption r given o = .error e) :
    ∃ c ∈ o, fillNode r given c = .error e := by
  cases o with
  | none => cases h
  | some n =>
    rw [fillOption, bind_pure_eq_error] at h
    exact ⟨n, rfl, h⟩

theorem fillFile_eq_error {file : Option Node} (isFile : IsFile file)
    (h : fillFile r given file = .error e) : ∃ c ∈ ast? file, fillNode r given c = .error e := by
  obtain ⟨f, rfl, isReference, -⟩ := isFile
  cases f with
  | fileReference pos path fullPath ast =>
    rw [fillFile, bind_pure_eq_error] at h
    exact fillOption_eq_error h
  | _ => cases isReference

/-- How a node of a block cannot be filled: it is a slot that fails by itself, or it is none and fails, or it
is a slot without content and the nodes below it fail. -/
inductive FailsInPlace (r : Reporter) (given : Filling) (e : Failure) : Node → Prop where
  | slot {n : Node} (fails : FailsToFill r given e n) : FailsInPlace r given e n
  | other {n : Node} (notSlot : n.isSlot = false) (fails : fillNode r given n = .error e) :
    FailsInPlace r given e n
  | default {pos : Position} {head : Owner} {block : Option Node} {name : String}
    (isSlot : (owner pos head block).isSlot = true) (named : (owner pos head block).slotName r = .ok name)
    (absent : given name = none) (fails : fillDefault r given block = .error e) :
    FailsInPlace r given e (owner pos head block)

theorem exists_of_fillNodes_eq_error {ns : List Node} (h : fillNodes r given ns = .error e) :
    ∃ n ∈ ns, FailsInPlace r given e n := by
  induction ns with
  | nil => cases h
  | cons n ns ih =>
    have either : ∀ {α : Type} {x : Except Failure α} {f : α → List Node → List Node},
        (do let part ← x; let others ← fillNodes r given ns; return f part others) = .error e →
          (x = .error e → FailsInPlace r given e n) → ∃ m ∈ n :: ns, FailsInPlace r given e m := by
      intro α x f h first
      rcases bind_eq_error.1 h with h | ⟨_, _, h⟩
      · exact ⟨n, List.mem_cons_self, first h⟩
      · obtain ⟨m, hm, fails⟩ := ih (bind_pure_eq_error.1 h)
        exact ⟨m, List.mem_cons_of_mem _ hm, fails⟩
    cases n with
    | owner pos head block =>
      rw [fillNodes] at h
      split at h
      · rename_i isSlot
        rcases bind_eq_error.1 h with h | ⟨name, named, h⟩
        · exact ⟨_, List.mem_cons_self, .slot ⟨isSlot, .inl h⟩⟩
        · cases found : given name with
          | some content =>
            rw [found] at h
            refine either h fun h => .slot ⟨isSlot, .inr ⟨name, named, ?_⟩⟩
            rw [found, ← h]
          | none =>
            rw [found] at h
            exact either h (.default isSlot named found)
      · rename_i notSlot
        exact either h (.other (by simpa using notSlot))
    | _ =>
      simp only [fillNodes] at h
      exact either h (.other rfl)

theorem fillNode_eq_error_of_fillDefault {pos : Position} {head : Owner} {block : Option Node}
    (wf : (owner pos head block).isWellFormed = true) (isSlot : (owner pos head block).isSlot = true)
    (h : fillDefault r given block = .error e) : fillNode r given (owner pos head block) = .error e := by
  have check : (owner pos head block).callCheck = .ok false := by
    rw [callCheck_of_isWellFormed wf, isCall_eq_false_of_isSlot isSlot]
  obtain ⟨_, element, _, ⟨rfl, rfl, rfl⟩, -⟩ := exists_tag_of_isTagNamed isSlot
  cases block with
  | none => cases h
  | some b =>
    obtain ⟨pos', head, nodes, rfl⟩ := isBlock_of_mem_tag wf b rfl
    rw [fillDefault] at h
    rw [fillNode, check, fillOption, fillNode, h]
    rfl

theorem exists_of_fillNode_eq_error {n : Node} (wf : n.isWellFormed = true) (notBlock : n.isBlock = false)
    (h : fillNode r given n = .error e) :
    n.isCall = false ∧ ∃ c ∈ n.children, fillNode r given c = .error e := by
  cases n with
  | leaf | rawInclusion | fileReference => simp [fillNode] at h
  | seq => cases notBlock
  | owner pos head block =>
    rw [fillNode, callCheck_of_isWellFormed wf] at h
    cases isCall : (owner pos head block).isCall with
    | true =>
      rw [isCall] at h
      cases h
    | false =>
      rw [isCall] at h
      obtain ⟨c, hc, h⟩ := fillOption_eq_error (bind_pure_eq_error.1 h)
      exact ⟨rfl, c, Option.mem_toList.2 hc, h⟩
  | fork pos head main alternate =>
    rw [fillNode, bind_eq_error] at h
    refine ⟨rfl, ?_⟩
    rcases h with h | ⟨_, _, h⟩
    · obtain ⟨c, hc, h⟩ := fillOption_eq_error h
      exact ⟨c, by simpa [children] using .inl hc, h⟩
    · obtain ⟨c, hc, h⟩ := fillOption_eq_error (bind_pure_eq_error.1 h)
      exact ⟨c, by simpa [children] using .inr hc, h⟩
  | inclusion pos file block =>
    rw [fillNode, bind_pure_eq_error] at h
    obtain ⟨c, hc, h⟩ := fillFile_eq_error (isWellFormed_inclusion.1 wf).2.1 h
    exact ⟨rfl, c, Option.mem_toList.2 hc, h⟩
  | extension pos file =>
    rw [fillNode, bind_pure_eq_error] at h
    obtain ⟨c, hc, h⟩ := fillFile_eq_error (isWellFormed_extension.1 wf).2 h
    exact ⟨rfl, c, Option.mem_toList.2 hc, h⟩

theorem failsBelow_of_fillNode {n : Node} (wf : n.isWellFormed = true)
    (h : fillNode r given n = .error e) : n.isCall = false ∧ FailsBelow r given e n := by
  induction n using childInduction with
  | step n ih =>
    cases isBlock : n.isBlock with
    | false =>
      obtain ⟨notCall, c, hc, h⟩ := exists_of_fillNode_eq_error wf isBlock h
      -- Outside of blocks there are no tags, so that filling goes on there.
      have untagged := tag?_of_mem_children wf isBlock hc
      have goesOn : c.endsFilling r given.has = false :=
        endsFilling_eq_false (isCall_eq_false_of_tag? untagged) (isSlot_eq_false_of_tag? untagged)
      obtain ⟨-, below⟩ := ih c hc (isWellFormed_of_mem_children wf hc) h
      exact ⟨notCall, c, hc, exists_of_failsBelow below goesOn⟩
    | true =>
      obtain ⟨pos, head, nodes, rfl⟩ := exists_seq_of_isBlock isBlock
      rw [fillNode, bind_pure_eq_error] at h
      obtain ⟨c, hc, fails⟩ := exists_of_fillNodes_eq_error h
      have wfc := (isWellFormed_seq.1 wf).2.2 c hc
      refine ⟨rfl, c, hc, ?_⟩
      cases fails with
      | slot fails => exact ⟨c, self_mem_walkUntil _ c, fails⟩
      | other notSlot fails =>
        obtain ⟨notCall, below⟩ := ih c hc wfc fails
        exact exists_of_failsBelow below (endsFilling_eq_false notCall notSlot)
      | default isSlot named absent fails =>
        obtain ⟨-, below⟩ := ih _ hc wfc (fillNode_eq_error_of_fillDefault wfc isSlot fails)
        have absent' : given.has _ = false := Option.isSome_eq_false_iff.2
          (Option.isNone_iff_eq_none.2 absent)
        exact exists_of_failsBelow below (endsFilling_eq_false_of_absent isSlot named absent')

theorem exists_failsToFill {ns : List Node} (wf : ∀ n ∈ ns, n.isWellFormed = true)
    (h : fillNodes r given ns = .error e) :
    ∃ n ∈ ns, ∃ m ∈ n.walkUntil (endsFilling r given.has), FailsToFill r given e m := by
  have whole : (seq {} .plain ns).isWellFormed = true := isWellFormed_seq.2 ⟨rfl, rfl, wf⟩
  have fails : fillNode r given (seq {} .plain ns) = .error e := by
    rw [fillNode, h]
    rfl
  exact (failsBelow_of_fillNode whole fails).2

end Node

namespace Provided

variable {p : Provided}

def offers (p : Provided) (name : String) : Bool := (p.lookup name).isSome

theorem has_filling (p : Provided) (depth : Nat) : (p.filling r depth).has = p.offers := by
  funext name
  cases depth <;> simp [Filling.has, filling, offers]

/-- So many replacements are made inside each other when the nodes are filled: a slot that filling comes
to gives way to content, in which another slot does. -/
inductive Nests (r : Reporter) (p : Provided) : Nat → List Node → Prop where
  | zero (nodes : List Node) : Nests r p 0 nodes
  | succ {depth : Nat} {nodes : List Node} {n slot content : Node} {name : String} (member : n ∈ nodes)
    (reached : slot ∈ n.walkUntil (endsFilling r p.offers)) (isSlot : slot.isSlot = true)
    (named : slot.slotName r = .ok name) (found : p.lookup name = some content)
    (inner : Nests r p depth content.children) : Nests r p (depth + 1) nodes

theorem mem_of_lookup {name : String} {content : Node} (found : p.lookup name = some content) :
    (name, content) ∈ p := by
  obtain ⟨before, after, rfl, -⟩ := List.lookup_eq_some_iff.1 found
  simp

/-- Filling fails at a slot without a name, in the nodes or in the provided content, or since
replacements nest deeper than is allowed. -/
theorem exists_unnamed_or_nests (wf : ∀ entry ∈ p, entry.2.isWellFormed = true)
    (blocks : ∀ entry ∈ p, entry.2.nodes? = some entry.2.children) {depth : Nat} {nodes : List Node}
    (nodesWf : ∀ n ∈ nodes, n.isWellFormed = true)
    (h : fillNodes r (p.filling r depth) nodes = .error e) :
    (∃ slot, slot.isSlot = true ∧ slot.slotName r = .error e ∧
      ((∃ n ∈ nodes, slot ∈ n.walk) ∨ ∃ entry ∈ p, slot ∈ entry.2.walk)) ∨
    e = .fault .tooDeep ∧ p.Nests r (depth + 1) nodes := by
  induction depth generalizing nodes with
  | zero =>
    obtain ⟨n, hn, slot, reached, isSlot, fails⟩ := exists_failsToFill nodesWf h
    rw [has_filling] at reached
    rcases fails with fails | ⟨name, named, fails⟩
    · exact .inl ⟨slot, isSlot, fails, .inl ⟨n, hn, mem_walk_of_mem_walkUntil reached⟩⟩
    · simp only [filling, Option.map_eq_some_iff, Except.error.injEq] at fails
      obtain ⟨content, found, rfl⟩ := fails
      exact .inr ⟨rfl, .succ hn reached isSlot named found (.zero _)⟩
  | succ depth ih =>
    obtain ⟨n, hn, slot, reached, isSlot, fails⟩ := exists_failsToFill nodesWf h
    rw [has_filling] at reached
    rcases fails with fails | ⟨name, named, fails⟩
    · exact .inl ⟨slot, isSlot, fails, .inl ⟨n, hn, mem_walk_of_mem_walkUntil reached⟩⟩
    · simp only [filling, Option.map_eq_some_iff] at fails
      obtain ⟨content, found, fails⟩ := fails
      have member := mem_of_lookup found
      rw [blocks _ member] at fails
      rcases ih (fun c hc => isWellFormed_of_mem_children (wf _ member) hc) fails with
        ⟨slot', isSlot', fails, ⟨c, hc, inside⟩ | inside⟩ | ⟨rfl, inner⟩
      · exact .inl ⟨slot', isSlot', fails, .inr ⟨_, member, mem_walk_of_mem_children hc inside⟩⟩
      · exact .inl ⟨slot', isSlot', fails, .inr inside⟩
      · exact .inr ⟨rfl, .succ hn reached isSlot named found inner⟩

theorem fill_eq_error {page : Node} (wf : ∀ entry ∈ p, entry.2.isWellFormed = true)
    (blocks : ∀ entry ∈ p, entry.2.nodes? = some entry.2.children)
    (stems : ∀ entry ∈ p, page.StemsFrom entry.2) {depth : Nat} {nodes : List Node}
    (nodesWf : ∀ n ∈ nodes, n.isWellFormed = true) (nodesStem : ∀ n ∈ nodes, page.StemsFrom n)
    (h : fillNodes r (p.filling r depth) nodes = .error e) :
    e.ReportsIn r page ∨ e = .fault .tooDeep ∧ p.Nests r (depth + 1) nodes := by
  rcases exists_unnamed_or_nests wf blocks nodesWf h with ⟨slot, isSlot, fails, inside⟩ | nests
  · have stemsSlot : page.StemsFrom slot := by
      rcases inside with ⟨n, hn, inside⟩ | ⟨entry, he, inside⟩
      · exact (nodesStem n hn).of_mem_walk inside
      · exact (stems entry he).of_mem_walk inside
    exact .inl ((reports_of_slotName isSlot fails).reportsIn stemsSlot)
  · exact .inr nests

end Provided

end PugComponents

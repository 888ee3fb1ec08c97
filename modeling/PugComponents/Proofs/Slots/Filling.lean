import PugComponents.Proofs.Slots.Provided
import PugComponents.Proofs.Tree.Calls
import PugComponents.Slots.Filling

/-! What filling does to a tree. A call stays as it is, every other node is rebuilt, and a slot in a
block gives way to a list of nodes. After filling, no slot is left outside of calls; the calls that
are left stood in the body or in provided content, and those of the body that no slot encloses stay. -/

namespace PugComponents.Node

variable {r : Reporter} {given : Filling}

/-- The list that takes the place of a node in a block: provided content, the filled nodes below the
slot, or the filled node itself. -/
inductive Filled (r : Reporter) (given : Filling) : Node → List Node → Prop where
  | provided {n : Node} {name : String} {part : List Node} (slot : n.isSlot = true)
    (named : n.slotName r = .ok name) (content : given name = some (.ok part)) :
    Filled r given n part
  | empty {n : Node} {name : String} (slot : n.isSlot = true) (named : n.slotName r = .ok name)
    (absent : given name = none) (childless : n.children = []) : Filled r given n []
  | default {n block filled : Node} {name : String} (slot : n.isSlot = true)
    (named : n.slotName r = .ok name) (absent : given name = none)
    (child : n.children = [block]) (run : fillNode r given block = .ok filled) :
    Filled r given n filled.children
  | other {n n' : Node} (notSlot : n.isSlot = false) (run : fillNode r given n = .ok n') :
    Filled r given n [n']

theorem fillDefault_eq_ok {block : Option Node} {part : List Node}
    (h : fillDefault r given block = .ok part) :
    block = none ∧ part = [] ∨
      ∃ b filled, block = some b ∧ fillNode r given b = .ok filled ∧ part = filled.children := by
  match block, h with
  | none, h =>
    simp only [fillDefault, Except.ok.injEq] at h
    exact .inl ⟨rfl, h.symm⟩
  | some (.seq pos head nodes), h =>
    simp only [fillDefault] at h
    refine .inr ⟨_, .seq pos head part, rfl, ?_, rfl⟩
    simp [fillNode, h]
  | some (.leaf ..), h => simp [fillDefault] at h
  | some (.owner ..), h => simp [fillDefault] at h
  | some (.fork ..), h => simp [fillDefault] at h
  | some (.inclusion ..), h => simp [fillDefault] at h
  | some (.extension ..), h => simp [fillDefault] at h
  | some (.rawInclusion ..), h => simp [fillDefault] at h
  | some (.fileReference ..), h => simp [fillDefault] at h

theorem filled_of_default {pos : Position} {head : Owner} {block : Option Node} {name : String}
    {part : List Node} (slot : (owner pos head block).isSlot = true)
    (named : (owner pos head block).slotName r = .ok name) (absent : given name = none)
    (run : fillDefault r given block = .ok part) : Filled r given (owner pos head block) part := by
  rcases fillDefault_eq_ok run with ⟨rfl, rfl⟩ | ⟨b, filled, rfl, below, rfl⟩
  · exact .empty slot named absent rfl
  · exact .default slot named absent rfl below

theorem fillNodes_eq_ok {ns out : List Node} (h : fillNodes r given ns = .ok out) :
    ∃ parts, List.Forall₂ (Filled r given) ns parts ∧ out = parts.flatten := by
  induction ns generalizing out with
  | nil =>
    simp only [fillNodes, Except.ok.injEq] at h
    exact ⟨[], .nil, h.symm⟩
  | cons n ns ih =>
    have step : ∃ part others, Filled r given n part ∧ fillNodes r given ns = .ok others ∧
        out = part ++ others := by
      cases n with
      | owner pos head block =>
        rw [fillNodes] at h
        split at h
        · rename_i slot
          rw [Outcome.bind_eq_ok] at h
          obtain ⟨name, named, h⟩ := h
          cases found : given name with
          | some content =>
            simp only [found, Outcome.bind_eq_ok, Outcome.pure_eq_ok] at h
            obtain ⟨part, run, others, rest, rfl⟩ := h
            exact ⟨part, others, .provided slot named (by rw [found, run]), rest, rfl⟩
          | none =>
            simp only [found, Outcome.bind_eq_ok, Outcome.pure_eq_ok] at h
            obtain ⟨part, run, others, rest, rfl⟩ := h
            exact ⟨part, others, filled_of_default slot named found run, rest, rfl⟩
        · rename_i notSlot
          simp only [Outcome.bind_eq_ok, Outcome.pure_eq_ok] at h
          obtain ⟨n', run, others, rest, rfl⟩ := h
          exact ⟨[n'], others, .other (by simpa using notSlot) run, rest, rfl⟩
      | _ =>
        simp only [fillNodes, Outcome.bind_eq_ok, Outcome.pure_eq_ok] at h
        obtain ⟨n', run, others, rest, rfl⟩ := h
        exact ⟨[n'], others, .other rfl run, rest, rfl⟩
    obtain ⟨part, others, first, rest, rfl⟩ := step
    obtain ⟨parts, related, rfl⟩ := ih rest
    exact ⟨part :: parts, .cons first related, rfl⟩

theorem fillOption_eq_ok {o o' : Option Node} (h : fillOption r given o = .ok o') :
    Option.Rel (fun c c' => fillNode r given c = .ok c') o o' := by
  cases o with
  | none =>
    simp only [fillOption, Except.ok.injEq] at h
    exact h ▸ .none
  | some n =>
    simp only [fillOption, Outcome.bind_eq_ok, Outcome.pure_eq_ok] at h
    obtain ⟨n', run, rfl⟩ := h
    exact .some run

theorem fillFile_eq_ok {file file' : Option Node} (h : fillFile r given file = .ok file') :
    RebuiltFile (fun c c' => fillNode r given c = .ok c') file file' := by
  match file, h with
  | none, h =>
    simp only [fillFile, Except.ok.injEq] at h
    exact h ▸ .none
  | some (.fileReference pos path fullPath ast), h =>
    simp only [fillFile, Outcome.bind_eq_ok, Outcome.pure_eq_ok] at h
    obtain ⟨ast', run, rfl⟩ := h
    exact .some pos path fullPath (fillOption_eq_ok run)
  | some (.leaf ..), h => simp [fillFile] at h
  | some (.seq ..), h => simp [fillFile] at h
  | some (.owner ..), h => simp [fillFile] at h
  | some (.fork ..), h => simp [fillFile] at h
  | some (.inclusion ..), h => simp [fillFile] at h
  | some (.extension ..), h => simp [fillFile] at h
  | some (.rawInclusion ..), h => simp [fillFile] at h

theorem fillNode_eq_ok {n n' : Node} (h : fillNode r given n = .ok n') :
    n.isCall = true ∧ n' = n ∨
      n.isCall = false ∧ Rebuilt (Filled r given) (fun c c' => fillNode r given c = .ok c') n n' := by
  cases n with
  | leaf pos head =>
    simp only [fillNode, Except.ok.injEq] at h
    exact .inr ⟨rfl, h ▸ .leaf pos head⟩
  | seq pos head nodes =>
    simp only [fillNode, Outcome.bind_eq_ok, Outcome.pure_eq_ok] at h
    obtain ⟨nodes', run, rfl⟩ := h
    obtain ⟨parts, related, rfl⟩ := fillNodes_eq_ok run
    exact .inr ⟨rfl, .seq pos head related⟩
  | owner pos head block =>
    simp only [fillNode, Outcome.bind_eq_ok] at h
    obtain ⟨isCall, check, h⟩ := h
    cases isCall with
    | true =>
      simp only [if_true, Outcome.pure_eq_ok] at h
      exact .inl ⟨isCall_eq_of_callCheck check, h.symm⟩
    | false =>
      simp only [Bool.false_eq_true, if_false, Outcome.bind_eq_ok, Outcome.pure_eq_ok] at h
      obtain ⟨block', run, rfl⟩ := h
      exact .inr ⟨isCall_eq_of_callCheck check, .owner pos head (fillOption_eq_ok run)⟩
  | fork pos head main alternate =>
    simp only [fillNode, Outcome.bind_eq_ok, Outcome.pure_eq_ok] at h
    obtain ⟨main', first, alternate', second, rfl⟩ := h
    exact .inr ⟨rfl, .fork pos head (fillOption_eq_ok first) (fillOption_eq_ok second)⟩
  | inclusion pos file block =>
    simp only [fillNode, Outcome.bind_eq_ok, Outcome.pure_eq_ok] at h
    obtain ⟨file', run, rfl⟩ := h
    exact .inr ⟨rfl, .inclusion pos block (fillFile_eq_ok run)⟩
  | extension pos file =>
    simp only [fillNode, Outcome.bind_eq_ok, Outcome.pure_eq_ok] at h
    obtain ⟨file', run, rfl⟩ := h
    exact .inr ⟨rfl, .extension pos (fillFile_eq_ok run)⟩
  | rawInclusion pos file filters =>
    simp only [fillNode, Except.ok.injEq] at h
    exact .inr ⟨rfl, h ▸ .rawInclusion pos file filters⟩
  | fileReference pos path fullPath ast =>
    simp only [fillNode, Except.ok.injEq] at h
    exact .inr ⟨rfl, h ▸ .fileReference pos path fullPath ast⟩

theorem bare_of_fillNode {n n' : Node} (h : fillNode r given n = .ok n') : n'.bare = n.bare := by
  rcases fillNode_eq_ok h with ⟨-, rfl⟩ | ⟨-, h⟩
  · rfl
  · exact h.bare_eq

/-- What holds of calls, of nodes rebuilt from pieces of which it holds, and of provided content, holds
of everything that filling does. -/
theorem fill_induction {N : Node → Node → Prop} {P : Node → List Node → Prop}
    (call : ∀ n, n.isCall = true → N n n)
    (rebuilt : ∀ n n', n.isCall = false →
      Rebuilt P (fun c c' => fillNode r given c = .ok c' ∧ N c c') n n' → N n n')
    (provided : ∀ n name part, n.isSlot = true → given name = some (.ok part) → P n part)
    (empty : ∀ n, n.isSlot = true → P n [])
    (default : ∀ n block filled, n.isSlot = true → n.children = [block] →
      fillNode r given block = .ok filled → N block filled → P n filled.children)
    (other : ∀ n n', n.isSlot = false → fillNode r given n = .ok n' → N n n' → P n [n'])
    (n : Node) :
    (∀ n', fillNode r given n = .ok n' → N n n') ∧ ∀ part, Filled r given n part → P n part := by
  induction n using childInduction with
  | step n ih =>
    have filled : ∀ n', fillNode r given n = .ok n' → N n n' := by
      intro n' run
      rcases fillNode_eq_ok run with ⟨isCall, rfl⟩ | ⟨notCall, built⟩
      · exact call n' isCall
      · refine rebuilt n n' notCall (built.imp (fun c hc => (ih c hc).2) ?_)
        intro c hc c' run
        exact ⟨run, (ih c hc).1 c' run⟩
    refine ⟨filled, ?_⟩
    intro part h
    cases h with
    | provided slot named content => exact provided n _ part slot content
    | empty slot named absent childless => exact empty n slot
    | @default block content name slot named absent child run =>
      have hb : block ∈ n.children := by simp [child]
      exact default n block content slot child run ((ih block hb).1 content run)
    | @other n' notSlot run => exact other n n' notSlot run (filled n' run)

theorem forall_mem_of_fillNodes {Q : Node → Prop} {ns out : List Node}
    (h : fillNodes r given ns = .ok out)
    (pieces : ∀ n ∈ ns, ∀ part, Filled r given n part → ∀ m ∈ part, Q m) : ∀ m ∈ out, Q m := by
  obtain ⟨parts, related, rfl⟩ := fillNodes_eq_ok h
  intro m hm
  obtain ⟨part, hpart, hm⟩ := List.mem_flatten.1 hm
  obtain ⟨n, hn, filled⟩ := exists_of_forall₂_right related hpart
  exact pieces n hn part filled m hm

def AllGiven (Q : Node → Prop) (given : Filling) : Prop :=
  ∀ name part, given name = some (.ok part) → ∀ m ∈ part, Q m

theorem isWellFormed_of_filled (content : AllGiven (·.isWellFormed = true) given) {n : Node}
    (wf : n.isWellFormed = true) {part : List Node} (h : Filled r given n part) :
    ∀ m ∈ part, m.isWellFormed = true := by
  have both : ∀ n, (∀ n', fillNode r given n = .ok n' →
        n.isWellFormed = true → n'.isWellFormed = true) ∧
      ∀ part, Filled r given n part →
        n.isWellFormed = true → ∀ m ∈ part, m.isWellFormed = true := by
    apply fill_induction
    case call => exact fun n _ wf => wf
    case rebuilt =>
      intro n n' _ built wf
      refine built.isWellFormed wf (fun _ c _ c' related => bare_of_fillNode related.1) ?_
      intro m hm
      obtain ⟨c, hc, part, piece, hm⟩ := built.exists_piece_of_mem hm
      have wfc := isWellFormed_of_mem_children wf hc
      cases piece with
      | listed _ related => exact related wfc m hm
      | single _ related =>
        rw [List.mem_singleton.1 hm]
        exact related.2 wfc
    case provided => exact fun n name part _ given _ => content name part given
    case empty => simp
    case default =>
      intro n block filled _ child _ ih wf m hm
      have wfb : block.isWellFormed = true := isWellFormed_of_mem_children wf (by simp [child])
      exact isWellFormed_of_mem_children (ih wfb) hm
    case other =>
      intro n n' _ _ ih wf m hm
      rw [List.mem_singleton.1 hm]
      exact ih wf
  exact (both n).2 part h wf

theorem Inherited.of_filled {Q : Node → Prop} (inherited : Inherited Q) (content : AllGiven Q given)
    {n : Node} (holds : Q n) {part : List Node} (h : Filled r given n part) : ∀ m ∈ part, Q m := by
  have both : ∀ n, (∀ n', fillNode r given n = .ok n' → Q n → Q n') ∧
      ∀ part, Filled r given n part → Q n → ∀ m ∈ part, Q m := by
    apply fill_induction
    case call => exact fun n _ holds => holds
    case rebuilt =>
      intro n n' _ built
      exact inherited.of_rebuilt built (fun _ _ related => related) fun _ _ related => related.2
    case provided => exact fun n name part _ given _ => content name part given
    case empty => simp
    case default =>
      intro n block filled _ child _ ih holds m hm
      exact inherited.child (ih (inherited.child holds (by simp [child]))) hm
    case other =>
      intro n n' _ _ ih holds m hm
      rw [List.mem_singleton.1 hm]
      exact ih holds
  exact (both n).2 part h holds

/-- No slot at or below the node stands outside of calls. -/
def SlotFree (n : Node) : Prop := ∀ m ∈ n.walkUntil isCall, m.isSlot = false

theorem SlotFree.of_mem_children {n c : Node} (h : n.SlotFree) (notCall : n.isCall = false)
    (hc : c ∈ n.children) : c.SlotFree :=
  fun m hm => h m (mem_walkUntil_step.2 (.inr ⟨notCall, c, hc, hm⟩))

theorem slotFree_of_children {n : Node} (notSlot : n.isSlot = false)
    (below : ∀ c ∈ n.children, c.SlotFree) : n.SlotFree := by
  intro m hm
  rcases mem_walkUntil_step.1 hm with rfl | ⟨-, c, hc, hm⟩
  · exact notSlot
  · exact below c hc m hm

theorem slotFree_of_filled (content : AllGiven SlotFree given) {n : Node}
    (wf : n.isWellFormed = true) {part : List Node} (h : Filled r given n part) :
    ∀ m ∈ part, m.SlotFree := by
  have both : ∀ n, (∀ n', fillNode r given n = .ok n' →
        n.isWellFormed = true → n.isSlot = false → n'.SlotFree) ∧
      ∀ part, Filled r given n part → n.isWellFormed = true → ∀ m ∈ part, m.SlotFree := by
    apply fill_induction
    case call =>
      intro n isCall _ notSlot m hm
      rcases mem_walkUntil_step.1 hm with rfl | ⟨notCall, -⟩
      · exact notSlot
      · rw [isCall] at notCall
        cases notCall
    case rebuilt =>
      intro n n' _ built wf notSlot
      have notSlot' : n'.isSlot = false := isSlot_eq_of_tag?_eq built.tag?_eq ▸ notSlot
      refine slotFree_of_children notSlot' ?_
      intro k hk
      obtain ⟨c, hc, part, piece, hk⟩ := built.exists_piece_of_mem hk
      have wfc := isWellFormed_of_mem_children wf hc
      cases piece with
      | listed _ related => exact related wfc k hk
      | single notBlock related =>
        rw [List.mem_singleton.1 hk]
        exact related.2 wfc (isSlot_eq_false_of_tag? (tag?_of_mem_children wf notBlock hc))
    case provided => exact fun n name part _ given _ => content name part given
    case empty => simp
    case default =>
      intro n block filled slot child run ih wf m hm
      have hb : block ∈ n.children := by simp [child]
      -- The slot gives way to the nodes of its block, which is no slot itself.
      have untagged : block.tag? = none :=
        tag?_of_mem_children wf (isBlock_eq_false_of_isSlot slot) hb
      have free := ih (isWellFormed_of_mem_children wf hb) (isSlot_eq_false_of_tag? untagged)
      refine free.of_mem_children ?_ hm
      exact isCall_eq_false_of_tag? ((tag?_eq_of_bare_eq (bare_of_fillNode run)).trans untagged)
    case other =>
      intro n n' notSlot _ ih wf m hm
      rw [List.mem_singleton.1 hm]
      exact ih wf notSlot
  exact (both n).2 part h wf

theorem mem_walk_of_filled (content : AllGiven CallFree given) {n : Node} {part : List Node}
    (h : Filled r given n part) {k m : Node} (hk : k ∈ part) (hm : m ∈ k.walk)
    (isCall : m.isCall = true) : m ∈ n.walk := by
  have both : ∀ n, (∀ n', fillNode r given n = .ok n' →
        ∀ m ∈ n'.walk, m.isCall = true → m ∈ n.walk) ∧
      ∀ part, Filled r given n part → ∀ k ∈ part, ∀ m ∈ k.walk, m.isCall = true → m ∈ n.walk := by
    apply fill_induction
    case call => exact fun n _ m hm _ => hm
    case rebuilt =>
      intro n n' notCall built m hm isCall
      rcases mem_walk_iff.1 hm with rfl | ⟨k, hk, hm⟩
      · rw [isCall_eq_of_tag?_eq built.tag?_eq, notCall] at isCall
        cases isCall
      · obtain ⟨c, hc, part, piece, hk⟩ := built.exists_piece_of_mem hk
        refine mem_walk_of_mem_children hc ?_
        cases piece with
        | listed _ related => exact related k hk m hm isCall
        | single _ related =>
          rw [List.mem_singleton.1 hk] at hm
          exact related.2 m hm isCall
    case provided =>
      intro n name part _ found k hk m hm isCall
      rw [content name part found k hk m hm] at isCall
      cases isCall
    case empty => simp
    case default =>
      intro n block filled _ child _ ih k hk m hm isCall
      have hb : block ∈ n.children := by simp [child]
      exact mem_walk_of_mem_children hb (ih m (mem_walk_of_mem_children hk hm) isCall)
    case other =>
      intro n n' _ _ ih k hk m hm isCall
      rw [List.mem_singleton.1 hk] at hm
      exact ih m hm isCall
  exact (both n).2 part h k hk m hm isCall

theorem isCall_eq_false_of_mem_slot {n c : Node} (slot : n.isSlot = true)
    (hc : c ∈ n.walkUntil isSlotOrCall) : c.isCall = false := by
  rcases mem_walkUntil_step.1 hc with rfl | ⟨notStop, -⟩
  · exact isCall_eq_false_of_isSlot slot
  · simp [isSlotOrCall, slot] at notStop

theorem exists_mem_of_filled {n : Node} {part : List Node} (h : Filled r given n part) {c : Node}
    (hc : c ∈ n.walkUntil isSlotOrCall) (isCall : c.isCall = true) : ∃ k ∈ part, c ∈ k.walk := by
  have both : ∀ n, (∀ n', fillNode r given n = .ok n' →
        ∀ c ∈ n.walkUntil isSlotOrCall, c.isCall = true → c ∈ n'.walk) ∧
      ∀ part, Filled r given n part →
        ∀ c ∈ n.walkUntil isSlotOrCall, c.isCall = true → ∃ k ∈ part, c ∈ k.walk := by
    apply fill_induction
    case call => exact fun n _ c hc _ => mem_walk_of_mem_walkUntil hc
    case rebuilt =>
      intro n n' notCall built c hc isCall
      rcases mem_walkUntil_step.1 hc with rfl | ⟨-, d, hd, hc⟩
      · rw [isCall] at notCall
        cases notCall
      · obtain ⟨part, piece, sub⟩ := built.exists_piece_subset hd
        cases piece with
        | listed _ related =>
          obtain ⟨k, hk, hc⟩ := related c hc isCall
          exact mem_walk_of_mem_children (sub hk) hc
        | single _ related =>
          exact mem_walk_of_mem_children (sub (List.mem_singleton.2 rfl)) (related.2 c hc isCall)
    case other =>
      intro n n' _ _ ih c hc isCall
      exact ⟨n', by simp, ih c hc isCall⟩
    case provided =>
      intro n name part slot _ c hc isCall
      simp [isCall_eq_false_of_mem_slot slot hc] at isCall
    case empty =>
      intro n slot c hc isCall
      simp [isCall_eq_false_of_mem_slot slot hc] at isCall
    case default =>
      intro n block filled slot _ _ _ c hc isCall
      simp [isCall_eq_false_of_mem_slot slot hc] at isCall
  exact (both n).2 part h c hc isCall

end PugComponents.Node

namespace PugComponents.Provided

open Node

variable {r : Reporter} {p : Provided}

theorem allGiven_filling {Q : Node → Prop}
    (step : ∀ given, AllGiven Q given → ∀ content, content ∈ p.map Prod.snd → ∀ part,
      fillNodes r given content.children = .ok part → ∀ m ∈ part, Q m) (depth : Nat) :
    AllGiven Q (p.filling r depth) := by
  induction depth with
  | zero =>
    intro name part found
    simp [filling] at found
  | succ depth ih =>
    intro name part found
    simp only [filling, Option.map_eq_some_iff] at found
    obtain ⟨content, looked, run⟩ := found
    have member : content ∈ p.map Prod.snd := by
      obtain ⟨before, after, rfl, -⟩ := List.lookup_eq_some_iff.1 looked
      simp
    cases content with
    | seq pos head nodes => exact step _ ih _ member part run
    | _ => simp [nodes?] at run

theorem isWellFormed_of_fill (content : ∀ entry ∈ p, entry.2.isWellFormed = true) {depth : Nat}
    {nodes out : List Node} (wf : ∀ n ∈ nodes, n.isWellFormed = true)
    (h : fillNodes r (p.filling r depth) nodes = .ok out) : ∀ m ∈ out, m.isWellFormed = true := by
  have given : AllGiven (·.isWellFormed = true) (p.filling r depth) := by
    refine allGiven_filling ?_ depth
    intro given ih b hb part run
    obtain ⟨entry, he, rfl⟩ := List.mem_map.1 hb
    refine forall_mem_of_fillNodes run fun n hn _ filled => ?_
    exact isWellFormed_of_filled ih (isWellFormed_of_mem_children (content entry he) hn) filled
  exact forall_mem_of_fillNodes h fun n hn _ filled => isWellFormed_of_filled given (wf n hn) filled

theorem inherited_of_fill {Q : Node → Prop} (inherited : Inherited Q) (content : ∀ entry ∈ p, Q entry.2)
    {depth : Nat} {nodes out : List Node} (holds : ∀ n ∈ nodes, Q n)
    (h : fillNodes r (p.filling r depth) nodes = .ok out) : ∀ m ∈ out, Q m := by
  have given : AllGiven Q (p.filling r depth) := by
    refine allGiven_filling ?_ depth
    intro given ih b hb part run
    obtain ⟨entry, he, rfl⟩ := List.mem_map.1 hb
    refine forall_mem_of_fillNodes run fun n hn _ filled => ?_
    exact inherited.of_filled ih (inherited.child (content entry he) hn) filled
  exact forall_mem_of_fillNodes h fun n hn _ filled => inherited.of_filled given (holds n hn) filled

theorem slotFree_of_fill (content : ∀ entry ∈ p, entry.2.isWellFormed = true) {depth : Nat}
    {nodes out : List Node} (wf : ∀ n ∈ nodes, n.isWellFormed = true)
    (h : fillNodes r (p.filling r depth) nodes = .ok out) : ∀ m ∈ out, m.SlotFree := by
  have given : AllGiven SlotFree (p.filling r depth) := by
    refine allGiven_filling ?_ depth
    intro given ih b hb part run
    obtain ⟨entry, he, rfl⟩ := List.mem_map.1 hb
    refine forall_mem_of_fillNodes run fun n hn _ filled => ?_
    exact slotFree_of_filled ih (isWellFormed_of_mem_children (content entry he) hn) filled
  exact forall_mem_of_fillNodes h fun n hn _ filled => slotFree_of_filled given (wf n hn) filled

theorem callFree_filling (content : ∀ entry ∈ p, entry.2.CallFree) (depth : Nat) :
    AllGiven CallFree (p.filling r depth) := by
  refine allGiven_filling ?_ depth
  intro given ih b hb part run
  obtain ⟨entry, he, rfl⟩ := List.mem_map.1 hb
  refine forall_mem_of_fillNodes run fun n hn part filled k hk m hm => ?_
  by_contra isCall
  have found := mem_walk_of_filled ih filled hk hm (by simpa using isCall)
  exact isCall ((content entry he).of_mem_children hn m found)

theorem mentions_of_fill (content : ∀ entry ∈ p, entry.2.CallFree) {nodes out : List Node}
    (h : p.fill r nodes = .ok out) {name : String} {k : Node} (hk : k ∈ out)
    (mentions : k.Mentions name) : ∃ n ∈ nodes, n.Mentions name := by
  have origin : ∀ k ∈ out, k.Mentions name → ∃ n ∈ nodes, n.Mentions name := by
    refine forall_mem_of_fillNodes h fun n hn part filled k hk mentions => ⟨n, hn, ?_⟩
    obtain ⟨m, hm, called⟩ := mentions
    have found := mem_walk_of_filled (callFree_filling content depthLimit) filled hk hm
      (isCall_of_calledName? called)
    exact ⟨m, found, called⟩
  exact origin k hk mentions

theorem mentions_of_retains {nodes out : List Node} (h : p.fill r nodes = .ok out) {name : String}
    {n : Node} (hn : n ∈ nodes) (retains : n.Retains name) : ∃ k ∈ out, k.Mentions name := by
  obtain ⟨c, hc, isCall, m, hm, called⟩ := retains
  obtain ⟨parts, related, rfl⟩ := fillNodes_eq_ok h
  obtain ⟨part, hpart, filled⟩ := exists_of_forall₂_left related hn
  obtain ⟨k, hk, hc⟩ := exists_mem_of_filled filled hc isCall
  exact ⟨k, List.mem_flatten.2 ⟨part, hpart, hk⟩, m, mem_walk_trans hm hc, called⟩

end PugComponents.Provided

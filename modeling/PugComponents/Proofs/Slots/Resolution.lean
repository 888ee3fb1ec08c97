import PugComponents.Proofs.Slots.Reports

/-! What becomes of a body once its slots are filled, said without the bound on the nesting: `FilledBy`
describes the result node by node. Filling comes to every tag that stands neither below a call nor below
a slot that gives way to content; the calls among these stay as they are. No slot is left, and so a body
that is filled once is not changed by any further filling. -/

namespace PugComponents

open Node Outcome

variable {r : Reporter}

namespace Provided

mutual

/-- The list that stands in the place of a node of a block once the slots are filled: for a slot it is
the filled content that is provided under its name, or else what stood below the slot, or nothing. -/
inductive PlacedBy (r : Reporter) (p : Provided) : Node → List Node → Prop where
  | provided {n content filled : Node} {name : String} (slot : n.isSlot = true)
    (named : n.slotName r = .ok name) (found : p.lookup name = some content)
    (below : FilledBy r p content filled) : PlacedBy r p n filled.children
  | default {n block filled : Node} {name : String} (slot : n.isSlot = true)
    (named : n.slotName r = .ok name) (absent : p.lookup name = none) (child : n.children = [block])
    (below : FilledBy r p block filled) : PlacedBy r p n filled.children
  | empty {n : Node} {name : String} (slot : n.isSlot = true) (named : n.slotName r = .ok name)
    (absent : p.lookup name = none) (childless : n.children = []) : PlacedBy r p n []
  | other {n n' : Node} (notSlot : n.isSlot = false) (filled : FilledBy r p n n') :
    PlacedBy r p n [n']

/-- A node once the slots below it are filled. A call is the same as before; any other node keeps what it
records and the order of its children. -/
inductive FilledBy (r : Reporter) (p : Provided) : Node → Node → Prop where
  | call {n : Node} (isCall : n.isCall = true) : FilledBy r p n n
  | rebuilt {n n' : Node} (notCall : n.isCall = false)
    (built : Rebuilt (PlacedBy r p) (FilledBy r p) n n') : FilledBy r p n n'

end

end Provided

namespace Node

theorem fillNode_seq {given : Filling} {pos : Position} {head : Sequence} {nodes out : List Node}
    (h : fillNodes r given nodes = .ok out) :
    fillNode r given (.seq pos head nodes) = .ok (.seq pos head out) := by
  rw [fillNode, h]
  rfl

section Sound

variable {p : Provided} {given : Filling}

def GivesFilled (r : Reporter) (p : Provided) (given : Filling) : Prop :=
  ∀ name part, given name = some (.ok part) →
    ∃ content filled, p.lookup name = some content ∧ p.FilledBy r content filled ∧
      part = filled.children

theorem filledBy_of_fillNode (content : GivesFilled r p given)
    (absent : ∀ name, given name = none → p.lookup name = none) (n : Node) :
    (∀ n', fillNode r given n = .ok n' → p.FilledBy r n n') ∧
      ∀ part, Filled r given n part → p.PlacedBy r n part := by
  induction n using childInduction with
  | step n ih =>
    have filled : ∀ n', fillNode r given n = .ok n' → p.FilledBy r n n' := by
      intro n' run
      rcases fillNode_eq_ok run with ⟨isCall, rfl⟩ | ⟨notCall, built⟩
      · exact .call isCall
      · exact .rebuilt notCall (built.imp (fun c hc => (ih c hc).2) fun c hc => (ih c hc).1)
    refine ⟨filled, ?_⟩
    intro part h
    cases h with
    | provided slot named found =>
      obtain ⟨block, inner, looked, below, rfl⟩ := content _ _ found
      exact .provided slot named looked below
    | empty slot named none childless => exact .empty slot named (absent _ none) childless
    | @default block inner name slot named none child run =>
      have hb : block ∈ n.children := by simp [child]
      exact .default slot named (absent _ none) child ((ih block hb).1 inner run)
    | @other n' notSlot run => exact .other notSlot (filled n' run)

end Sound

section Reached

variable {given : Filling}

/-- Filling comes to every tag below a node that is not below a call, nor below a slot that gives way to
content; what takes the place of the tag stands below the result. -/
theorem exists_filled_of_reached (n : Node) (wf : n.isWellFormed = true) :
    (∀ n', fillNode r given n = .ok n' → n.endsFilling r given.has = false →
      ∀ c ∈ n.children, ∀ m ∈ c.walkUntil (endsFilling r given.has), m.tag? ≠ none →
        ∃ part, Filled r given m part ∧ ∀ k ∈ part, ∃ c' ∈ n'.children, k ∈ c'.walk) ∧
    ∀ whole, Filled r given n whole →
      ∀ m ∈ n.walkUntil (endsFilling r given.has), m.tag? ≠ none →
        ∃ part, Filled r given m part ∧ ∀ k ∈ part, ∃ c' ∈ whole, k ∈ c'.walk := by
  induction n using childInduction with
  | step n ih =>
    have inside : ∀ n', fillNode r given n = .ok n' → n.endsFilling r given.has = false →
        ∀ c ∈ n.children, ∀ m ∈ c.walkUntil (endsFilling r given.has), m.tag? ≠ none →
          ∃ part, Filled r given m part ∧ ∀ k ∈ part, ∃ c' ∈ n'.children, k ∈ c'.walk := by
      intro n' run goesOn c hc m hm tagged
      have wfc := isWellFormed_of_mem_children wf hc
      rcases fillNode_eq_ok run with ⟨isCall, rfl⟩ | ⟨notCall, built⟩
      · simp [endsFilling, isCall] at goesOn
      obtain ⟨part, piece, sub⟩ := built.exists_piece_subset hc
      cases piece with
      | listed _ related =>
        obtain ⟨part', filled, place⟩ := (ih c hc wfc).2 part related m hm tagged
        refine ⟨part', filled, fun k hk => ?_⟩
        obtain ⟨c', hc', hk⟩ := place k hk
        exact ⟨c', sub hc', hk⟩
      | @single c' notBlock related =>
        -- Outside of blocks there are no tags, so that the tag is further below.
        rcases mem_walkUntil_step.1 hm with rfl | ⟨goesOn', d, hd, hm⟩
        · exact absurd (tag?_of_mem_children wf notBlock hc) tagged
        obtain ⟨part', filled, place⟩ := (ih c hc wfc).1 c' related goesOn' d hd m hm tagged
        refine ⟨part', filled, fun k hk => ?_⟩
        obtain ⟨d', hd', hk⟩ := place k hk
        exact ⟨c', sub (List.mem_singleton.2 rfl), mem_walk_of_mem_children hd' hk⟩
    refine ⟨inside, ?_⟩
    intro whole h m hm tagged
    rcases mem_walkUntil_step.1 hm with rfl | ⟨goesOn, c, hc, hm⟩
    · exact ⟨whole, h, fun k hk => ⟨k, hk, self_mem_walk k⟩⟩
    cases h with
    | provided slot named content =>
      simp [endsFilling, slot, named, Filling.has, content] at goesOn
    | empty slot named absent childless => simp [childless] at hc
    | @default block filled name slot named absent child run =>
      obtain rfl : c = block := by simpa [child] using hc
      rcases mem_walkUntil_step.1 hm with rfl | ⟨goesOn', d, hd, hm⟩
      · exact absurd (tag?_of_mem_children wf (isBlock_eq_false_of_isSlot slot) hc) tagged
      exact (ih c hc (isWellFormed_of_mem_children wf hc)).1 filled run goesOn' d hd m hm tagged
    | @other n' notSlot run =>
      obtain ⟨part, filled, place⟩ := inside n' run goesOn c hc m hm tagged
      refine ⟨part, filled, fun k hk => ⟨n', by simp, ?_⟩⟩
      obtain ⟨c', hc', hk⟩ := place k hk
      exact mem_walk_of_mem_children hc' hk

theorem exists_given_of_reached {n slot : Node} {out : List Node} {name : String}
    (wf : n.isWellFormed = true) (isBlock : n.isBlock = true)
    (run : fillNodes r given n.children = .ok out) {c : Node} (hc : c ∈ n.children)
    (reached : slot ∈ c.walkUntil (endsFilling r given.has)) (isSlot : slot.isSlot = true)
    (named : slot.slotName r = .ok name) (has : given.has name = true) :
    ∃ part, given name = some (.ok part) := by
  cases n with
  | seq pos head nodes =>
    have tagged : slot.tag? ≠ none := by
      intro untagged
      simp [isSlot_eq_false_of_tag? untagged] at isSlot
    have goesOn : (seq pos head nodes).endsFilling r given.has = false := endsFilling_eq_false rfl rfl
    obtain ⟨part, filled, -⟩ := (exists_filled_of_reached _ wf).1 _ (fillNode_seq run) goesOn c hc
      slot reached tagged
    cases filled with
    | provided _ named' content =>
      rw [named] at named'
      cases named'
      exact ⟨part, content⟩
    | empty _ named' absent | default _ named' absent =>
      rw [named] at named'
      cases named'
      simp [Filling.has, absent] at has
    | other notSlot => simp [isSlot] at notSlot
  | _ => cases isBlock

theorem eq_singleton_of_isCall {c : Node} {part : List Node} (isCall : c.isCall = true)
    (h : Filled r given c part) : part = [c] := by
  have notSlot : c.isSlot = false := isSlot_eq_false_of_isCall isCall
  cases h with
  | provided slot | empty slot | default slot => simp [notSlot] at slot
  | other _ run =>
    rcases fillNode_eq_ok run with ⟨-, rfl⟩ | ⟨notCall, -⟩
    · rfl
    · simp [isCall] at notCall

end Reached

section Refilling

variable {given : Filling}

theorem mem_walkUntil_of_imp {stop stop' : Node → Bool} (imp : ∀ n, stop n = true → stop' n = true)
    {m n : Node} (h : m ∈ n.walkUntil stop') : m ∈ n.walkUntil stop := by
  obtain ⟨above, line, free⟩ := mem_walkUntil_iff.1 h
  refine mem_walkUntil_iff.2 ⟨above, line, fun a ha => ?_⟩
  by_contra stops
  have stops' : stop' a = true := imp a (by simpa using stops)
  rw [free a ha] at stops'
  cases stops'

theorem eq_self_of_slotFree {n : Node} (wf : n.isWellFormed = true) (free : n.SlotFree) :
    (∀ n', fillNode r given n = .ok n' → n' = n) ∧ ∀ part, Filled r given n part → part = [n] := by
  induction n using childInduction with
  | step n ih =>
    have same : ∀ n', fillNode r given n = .ok n' → n' = n := by
      intro n' run
      rcases fillNode_eq_ok run with ⟨-, rfl⟩ | ⟨notCall, built⟩
      · rfl
      have below := fun c hc => ih c hc (isWellFormed_of_mem_children wf hc)
        (free.of_mem_children notCall hc)
      exact built.eq_self (fun _ c hc => (below c hc).2) fun c hc => (below c hc).1
    refine ⟨same, ?_⟩
    intro part h
    have notSlot : n.isSlot = false := free n (self_mem_walkUntil _ n)
    cases h with
    | provided slot | empty slot | default slot => simp [notSlot] at slot
    | @other n' _ run => rw [same n' run]

theorem fillNodes_eq_self {ns : List Node} (wf : ∀ n ∈ ns, n.isWellFormed = true)
    (free : ∀ n ∈ ns, n.SlotFree) : fillNodes r given ns = .ok ns := by
  cases run : fillNodes r given ns with
  | error e =>
    obtain ⟨n, hn, slot, reached, isSlot, -⟩ := exists_failsToFill wf run
    have coarser : ∀ n : Node, n.isCall = true → n.endsFilling r given.has = true := by
      intro n isCall
      simp [endsFilling, isCall]
    simp [free n hn slot (mem_walkUntil_of_imp coarser reached)] at isSlot
  | ok out =>
    obtain ⟨parts, related, rfl⟩ := fillNodes_eq_ok run
    rw [flatten_eq_of_forall₂_self related fun n hn => (eq_self_of_slotFree (wf n hn) (free n hn)).2]

end Refilling

end Node

namespace Provided

variable {p : Provided}

def Replaces (r : Reporter) (p : Provided) (s : Node) : Prop :=
  s.isSlot = true ∧ ∃ name, s.slotName r = .ok name ∧ p.offers name = true

theorem endsFilling_eq_true {n : Node} :
    n.endsFilling r p.offers = true ↔ n.isCall = true ∨ p.Replaces r n := by
  simp only [endsFilling, Replaces, Bool.or_eq_true, Bool.and_eq_true]
  cases n.slotName r <;> simp

/-- None of the nodes, from the outermost one on, is a slot that gives way to content, but for those
that come after a call: the slots below a call belong to the component that is called. -/
def KeepsBelow (r : Reporter) (p : Provided) (above : List Node) : Prop :=
  ∀ before s after, above = before ++ s :: after → p.Replaces r s → ∃ a ∈ before, a.isCall = true

theorem keepsBelow_of_endsFilling {above : List Node}
    (h : ∀ a ∈ above, a.endsFilling r p.offers = false) : p.KeepsBelow r above := by
  rintro before s after rfl replaces
  have ends := endsFilling_eq_true.2 (.inr replaces)
  rw [h s (by simp)] at ends
  cases ends

/-- A call that is not below replaced content is part of a call that filling comes to. -/
theorem exists_reached_call {n c : Node} {above : List Node} (line : Lineage n above c)
    (isCall : c.isCall = true) (keeps : p.KeepsBelow r above) :
    ∃ k ∈ n.walkUntil (endsFilling r p.offers), k.isCall = true ∧ c ∈ k.walk := by
  induction line with
  | refl n => exact ⟨n, self_mem_walkUntil _ n, isCall, self_mem_walk n⟩
  | @down n d c above hd rest ih =>
    by_cases outer : n.isCall = true
    · have inside : c ∈ n.walk := mem_walk_iff_lineage.2 ⟨n :: above, .down hd rest⟩
      exact ⟨n, self_mem_walkUntil _ n, outer, inside⟩
    · have goesOn : n.endsFilling r p.offers = false := by
        by_contra ends
        rcases endsFilling_eq_true.1 (by simpa using ends) with call | replaces
        · exact outer call
        · obtain ⟨a, ha, -⟩ := keeps [] n above rfl replaces
          cases ha
      have deeper : p.KeepsBelow r above := by
        intro before s after eq replaces
        obtain ⟨a, ha, call⟩ := keeps (n :: before) s after (by rw [eq, List.cons_append]) replaces
        rcases List.mem_cons.1 ha with rfl | ha
        · exact absurd call outer
        · exact ⟨a, ha, call⟩
      obtain ⟨k, hk, call, hc⟩ := ih isCall deeper
      exact ⟨k, mem_walkUntil_step.2 (.inr ⟨goesOn, d, hd, hk⟩), call, hc⟩

theorem lookup_eq_none_of_filling {depth : Nat} {name : String} (h : p.filling r depth name = none) :
    p.lookup name = none := by
  cases depth <;> simpa [filling] using h

theorem givesFilled_filling (p : Provided) (depth : Nat) : GivesFilled r p (p.filling r depth) := by
  induction depth with
  | zero =>
    intro name part found
    simp [filling] at found
  | succ depth ih =>
    intro name part found
    simp only [filling, Option.map_eq_some_iff] at found
    obtain ⟨content, looked, run⟩ := found
    cases content with
    | seq pos head nodes =>
      refine ⟨_, .seq pos head part, looked, ?_, rfl⟩
      exact (filledBy_of_fillNode ih (fun _ => lookup_eq_none_of_filling) _).1 _ (fillNode_seq run)
    | _ => simp [nodes?] at run

/-- A block with its slots filled, with content replaced inside content up to the limit. -/
def resolveWithin (r : Reporter) (defined : List String) (location : Location) (p : Provided)
    (limit : Nat) (body : Node) : Except Failure Node := do
  p.check r defined location
  match body with
  | .seq .. => fillNode r (p.filling r limit) body
  | _ => .error (.fault .missingPart)

theorem resolveWithin_depthLimit (r : Reporter) (defined : List String) (location : Location)
    (p : Provided) (body : Node) :
    p.resolveWithin r defined location depthLimit body = p.resolve r defined location body := by
  cases body <;> rfl

theorem resolveWithin_eq_ok {defined : List String} {location : Location} {limit : Nat}
    {body body' : Node} (h : p.resolveWithin r defined location limit body = .ok body') :
    ∃ pos head nodes nodes', body = .seq pos head nodes ∧ body' = .seq pos head nodes' ∧
      fillNodes r (p.filling r limit) nodes = .ok nodes' := by
  unfold resolveWithin at h
  obtain ⟨-, -, h⟩ := bind_eq_ok.1 h
  cases body with
  | seq pos head nodes =>
    simp only [fillNode, bind_eq_ok, pure_eq_ok] at h
    obtain ⟨nodes', run, rfl⟩ := h
    exact ⟨pos, head, nodes, nodes', rfl, rfl, run⟩
  | _ => cases h

end Provided

/-- If the slots of a body can be filled, then every slot gives way, in its place, to the filled content
that is provided for it, or else to what stands below it. All else is as before, the calls together with
what is below them, and a second filling does nothing. -/
theorem resolution_of_resolveWithin {p : Provided} {defined : List String} {location : Location}
    {limit : Nat} {body body' : Node} (wf : body.isWellFormed = true)
    (content : ∀ entry ∈ p, entry.2.isWellFormed = true)
    (run : p.resolveWithin r defined location limit body = .ok body') :
    p.FilledBy r body body' ∧ body'.SlotFree ∧
      (∀ above c, Lineage body above c → c.isCall = true → p.KeepsBelow r above → c ∈ body'.walk) ∧
      ∀ (q : Provided) (depth : Nat),
        fillNodes r (q.filling r depth) body'.children = .ok body'.children := by
  obtain ⟨pos, head, nodes, nodes', rfl, rfl, fill⟩ := Provided.resolveWithin_eq_ok run
  have whole : fillNode r (p.filling r limit) (.seq pos head nodes) = .ok (.seq pos head nodes') :=
    fillNode_seq fill
  have wfNodes := (isWellFormed_seq.1 wf).2.2
  have free : ∀ n ∈ nodes', n.SlotFree := Provided.slotFree_of_fill content wfNodes fill
  refine ⟨?_, slotFree_of_children rfl free, ?_, ?_⟩
  · exact (filledBy_of_fillNode (Provided.givesFilled_filling p limit)
      (fun _ => Provided.lookup_eq_none_of_filling) _).1 _ whole
  · intro above c line isCall keeps
    obtain ⟨k, reached, outer, inside⟩ := Provided.exists_reached_call line isCall keeps
    refine mem_walk_trans inside ?_
    rcases mem_walkUntil_step.1 reached with rfl | ⟨goesOn, n, hn, reached⟩
    · cases outer
    rw [← Provided.has_filling p limit] at goesOn reached
    have tagged : k.tag? ≠ none := by
      intro untagged
      simp [isCall_eq_false_of_tag? untagged] at outer
    obtain ⟨part, filled, place⟩ :=
      (exists_filled_of_reached _ wf).1 _ whole goesOn n hn k reached tagged
    rw [eq_singleton_of_isCall outer filled] at place
    obtain ⟨c', hc', hk⟩ := place k (by simp)
    exact mem_walk_of_mem_children hc' hk
  · exact fun q depth => fillNodes_eq_self (Provided.isWellFormed_of_fill content wfNodes fill) free

def namedSlot (name : String) (nodes : List Node) : Node :=
  .owner {} (.tag { label := .str "slot", attrs := [{ name := .str name }] }) (some (block {} nodes))

def bareCall (name : String) (nodes : List Node) : Node :=
  .owner {} (.tag { label := .str name }) (some (block {} nodes))

/-- A slot around a call, a call around a slot, and content in which there are both. -/
def slottedBody : Node :=
  block {} [namedSlot "head" [bareCall "Old" []], namedSlot "foot" [bareCall "Kept" []],
    bareCall "Frame" [namedSlot "head" [bareCall "Inner" []]]]

def slottedContent : Provided :=
  [("head", block {} [namedSlot "foot" [], bareCall "New" [], namedSlot "none" []])]

theorem resolution_slottedBody : ∃ body',
    slottedContent.resolve {} ["head", "foot"] {} slottedBody = .ok body' ∧
    slottedContent.FilledBy {} slottedBody body' ∧ body'.SlotFree ∧
    bareCall "Kept" [] ∈ body'.walk ∧
    ∀ q : Provided, q.fill {} body'.children = .ok body'.children := by
  obtain ⟨body', run⟩ : ∃ body', slottedContent.resolve {} ["head", "foot"] {} slottedBody = .ok body' :=
    Outcome.exists_ok_of_isOk (by decide +kernel)
  obtain ⟨filled, free, kept, again⟩ := resolution_of_resolveWithin (by decide +kernel) (by decide +kernel)
    ((Provided.resolveWithin_depthLimit {} ["head", "foot"] {} slottedContent slottedBody).trans run)
  refine ⟨body', run, filled, free, ?_, fun q => again q _⟩
  have line : Lineage slottedBody [slottedBody, namedSlot "foot" [bareCall "Kept" []],
      block {} [bareCall "Kept" []]] (bareCall "Kept" []) :=
    .down (by simp [slottedBody, block, children]) (.down (by simp [namedSlot, children])
      (.down (by simp [block, children]) (.refl _)))
  exact kept _ _ line (by decide +kernel) (Provided.keepsBelow_of_endsFilling (by decide +kernel))

end PugComponents

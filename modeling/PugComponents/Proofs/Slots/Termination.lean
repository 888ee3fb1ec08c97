import PugComponents.Proofs.Slots.Resolution
import Mathlib.Data.List.Chain
import Mathlib.Data.List.Nodup
import Mathlib.Data.List.Perm.Subperm
import Mathlib.Logic.Relation

/-! When filling comes to an end. Content leads on to the content of the slots in it; some bound on the
nesting suffices if and only if no cycle of content is reached from the slots of the body. A bound that
is too small shows in a chain of content of that length, and a chain that is longer than the list of
names goes through one of them twice. -/

namespace PugComponents

open Node Outcome Relation

variable {r : Reporter}

/-- A block that can be filled, but for the depth of its nesting: it is well-formed, and every slot in it
has a name. -/
structure Node.Fillable (r : Reporter) (n : Node) : Prop where
  isBlock : n.isBlock = true
  isWellFormed : n.isWellFormed = true
  named : ∀ s ∈ n.walk, s.isSlot = true → ∃ name, s.slotName r = .ok name

namespace Provided

variable {p : Provided}

/-- A slot of that name gives way to content where filling comes to it: it is neither below a call nor
below another slot that gives way to content. -/
def Activates (r : Reporter) (p : Provided) (n : Node) (name : String) : Prop :=
  p.offers name = true ∧ ∃ above slot, Lineage n above slot ∧ slot.isSlot = true ∧
    slot.slotName r = .ok name ∧ ∀ a ∈ above, a.isCall = false ∧ ¬ p.Replaces r a

/-- The content under one name has a slot that gives way to the content under the other. -/
def Leads (r : Reporter) (p : Provided) (name next : String) : Prop :=
  ∃ content, p.lookup name = some content ∧ p.Activates r content next

theorem endsFilling_eq_false_iff {n : Node} :
    n.endsFilling r p.offers = false ↔ n.isCall = false ∧ ¬ p.Replaces r n := by
  rw [← Bool.not_eq_true, endsFilling_eq_true]
  simp

theorem activates_iff {n : Node} (isBlock : n.isBlock = true) {name : String} :
    p.Activates r n name ↔ p.offers name = true ∧ ∃ c ∈ n.children,
      ∃ slot ∈ c.walkUntil (endsFilling r p.offers), slot.isSlot = true ∧ slot.slotName r = .ok name := by
  have untagged := tag?_of_isBlock isBlock
  have notSlot := isSlot_eq_false_of_tag? untagged
  have goesOn : n.endsFilling r p.offers = false :=
    endsFilling_eq_false (isCall_eq_false_of_tag? untagged) notSlot
  refine and_congr_right fun _ => ?_
  constructor
  · rintro ⟨above, slot, line, isSlot, named, free⟩
    have reached : slot ∈ n.walkUntil (endsFilling r p.offers) :=
      mem_walkUntil_iff.2 ⟨above, line, fun a ha => endsFilling_eq_false_iff.2 (free a ha)⟩
    rcases mem_walkUntil_step.1 reached with rfl | ⟨-, c, hc, reached⟩
    · simp [notSlot] at isSlot
    · exact ⟨c, hc, slot, reached, isSlot, named⟩
  · rintro ⟨c, hc, slot, reached, isSlot, named⟩
    obtain ⟨above, line, free⟩ :=
      mem_walkUntil_iff.1 (mem_walkUntil_step.2 (.inr ⟨goesOn, c, hc, reached⟩))
    exact ⟨above, slot, line, isSlot, named, fun a ha => endsFilling_eq_false_iff.1 (free a ha)⟩

/-- One more replacement is made if a slot that filling comes to gives way to content, and the others are
made in the content. -/
theorem nests_succ_iff {n : Node} (isBlock : n.isBlock = true) {depth : Nat} :
    p.Nests r (depth + 1) n.children ↔ ∃ name content, p.Activates r n name ∧
      p.lookup name = some content ∧ p.Nests r depth content.children := by
  constructor
  · intro h
    cases h with
    | @succ _ _ c slot content name member reached isSlot named found inner =>
      refine ⟨name, content, (activates_iff isBlock).2 ⟨?_, c, member, slot, reached, isSlot, named⟩,
        found, inner⟩
      simp [offers, found]
  · rintro ⟨name, content, activates, found, inner⟩
    obtain ⟨-, c, member, slot, reached, isSlot, named⟩ := (activates_iff isBlock).1 activates
    exact .succ member reached isSlot named found inner

theorem Nests.of_succ {depth : Nat} {nodes : List Node} (h : p.Nests r (depth + 1) nodes) :
    p.Nests r depth nodes := by
  induction depth generalizing nodes with
  | zero => exact .zero nodes
  | succ depth ih =>
    cases h with
    | succ member reached isSlot named found inner =>
      exact .succ member reached isSlot named found (ih inner)

section Bound

variable (content : ∀ entry ∈ p, entry.2.Fillable r)

include content

theorem nests_of_fillNodes_eq_error {n : Node} (fillable : n.Fillable r) {depth : Nat} {e : Failure}
    (h : fillNodes r (p.filling r depth) n.children = .error e) :
    e = .fault .tooDeep ∧ p.Nests r (depth + 1) n.children := by
  have blocks : ∀ entry ∈ p, entry.2.nodes? = some entry.2.children := by
    intro entry he
    exact nodes?_of_isBlock (content entry he).isBlock
  rcases exists_unnamed_or_nests (fun entry he => (content entry he).isWellFormed) blocks
    (fun c hc => isWellFormed_of_mem_children fillable.isWellFormed hc) h with
    ⟨slot, isSlot, fails, inside⟩ | nests
  · have named : ∃ name, slot.slotName r = .ok name := by
      rcases inside with ⟨c, hc, inside⟩ | ⟨entry, he, inside⟩
      · exact fillable.named slot (mem_walk_of_mem_children hc inside) isSlot
      · exact (content entry he).named slot inside isSlot
    obtain ⟨name, named⟩ := named
    rw [named] at fails
    cases fails
  · exact nests

theorem not_nests_of_fillNodes {n : Node} (fillable : n.Fillable r) {depth : Nat} {out : List Node}
    (h : fillNodes r (p.filling r depth) n.children = .ok out) : ¬ p.Nests r (depth + 1) n.children := by
  induction depth generalizing n out with
  | zero =>
    rintro (_ | ⟨member, reached, isSlot, named, found, -⟩)
    rw [← has_filling p 0] at reached
    obtain ⟨part, given⟩ := exists_given_of_reached fillable.isWellFormed fillable.isBlock h member
      reached isSlot named (by simp [Filling.has, filling, found])
    simp [filling] at given
  | succ depth ih =>
    rintro (_ | ⟨member, reached, isSlot, named, found, inner⟩)
    rw [← has_filling p (depth + 1)] at reached
    obtain ⟨part, given⟩ := exists_given_of_reached fillable.isWellFormed fillable.isBlock h member
      reached isSlot named (by simp [Filling.has, filling, found])
    have fillable' := content _ (mem_of_lookup found)
    simp only [filling, found, Option.map_some, nodes?_of_isBlock fillable'.isBlock,
      Option.some.injEq] at given
    exact ih fillable' given inner

/-- A bound suffices if and only if replacements do not nest deeper. -/
theorem exists_fillNodes_iff {n : Node} (fillable : n.Fillable r) {depth : Nat} :
    (∃ out, fillNodes r (p.filling r depth) n.children = .ok out) ↔
      ¬ p.Nests r (depth + 1) n.children := by
  constructor
  · rintro ⟨out, run⟩
    exact not_nests_of_fillNodes content fillable run
  · intro shallow
    cases run : fillNodes r (p.filling r depth) n.children with
    | ok out => exact ⟨out, rfl⟩
    | error e => exact absurd (nests_of_fillNodes_eq_error content fillable run).2 shallow

end Bound

section Cycles

/-- So many replacements are made inside each other in the content under a name. -/
def NestsUnder (r : Reporter) (p : Provided) (depth : Nat) (name : String) : Prop :=
  ∃ content, p.lookup name = some content ∧ p.Nests r depth content.children

variable (blocks : ∀ entry ∈ p, entry.2.isBlock = true)

include blocks

theorem nestsUnder_of_leads {depth : Nat} {name next : String} (leads : p.Leads r name next)
    (h : p.NestsUnder r depth next) : p.NestsUnder r (depth + 1) name := by
  obtain ⟨content, found, activates⟩ := leads
  obtain ⟨inner, found', nests⟩ := h
  have isBlock := blocks _ (mem_of_lookup found)
  exact ⟨content, found, (nests_succ_iff isBlock).2 ⟨next, inner, activates, found', nests⟩⟩

theorem nestsUnder_of_reflTransGen {depth : Nat} {name last : String}
    (path : ReflTransGen (p.Leads r) name last) (h : p.NestsUnder r depth last) :
    p.NestsUnder r depth name := by
  induction path using ReflTransGen.head_induction_on with
  | refl => exact h
  | head leads _ ih =>
    obtain ⟨content, found, nests⟩ := nestsUnder_of_leads blocks leads ih
    exact ⟨content, found, nests.of_succ⟩

theorem nestsUnder_of_cycle {name : String} (cycle : TransGen (p.Leads r) name name) (depth : Nat) :
    p.NestsUnder r depth name := by
  obtain ⟨next, leads, path⟩ := TransGen.head'_iff.1 cycle
  induction depth with
  | zero =>
    obtain ⟨content, found, -⟩ := leads
    exact ⟨content, found, .zero _⟩
  | succ depth ih => exact nestsUnder_of_leads blocks leads (nestsUnder_of_reflTransGen blocks path ih)

/-- Replacements that are made inside each other follow a chain of names. -/
theorem exists_chain_of_nests {n : Node} (isBlock : n.isBlock = true) {depth : Nat}
    (h : p.Nests r depth n.children) :
    ∃ names : List String, names.length = depth ∧ names.IsChain (p.Leads r) ∧
      (∀ name ∈ names, p.offers name = true) ∧ ∀ first ∈ names.head?, p.Activates r n first := by
  induction depth generalizing n with
  | zero => exact ⟨[], rfl, .nil, by simp, by simp⟩
  | succ depth ih =>
    obtain ⟨name, content, activates, found, inner⟩ := (nests_succ_iff isBlock).1 h
    obtain ⟨names, rfl, chain, offered, first⟩ := ih (blocks _ (mem_of_lookup found)) inner
    refine ⟨name :: names, rfl, ?_, List.forall_mem_cons.2 ⟨activates.1, offered⟩, ?_⟩
    · exact List.isChain_cons.2 ⟨fun next hn => ⟨content, found, first next hn⟩, chain⟩
    · simpa using activates

end Cycles

theorem nodup_of_isChain {R : String → String → Prop} {first : String} {rest : List String}
    (chain : (first :: rest).IsChain R)
    (acyclic : ∀ name, ReflTransGen R first name → ¬ TransGen R name name) : (first :: rest).Nodup := by
  have ordered : (first :: rest).Pairwise (TransGen R) :=
    List.isChain_iff_pairwise.1 (chain.imp fun _ _ => .single)
  have reached : ∀ name ∈ first :: rest, ReflTransGen R first name := by
    intro name hn
    rcases List.mem_cons.1 hn with rfl | hn
    · exact .refl
    · exact (List.rel_of_pairwise_cons ordered hn).to_reflTransGen
  refine ordered.imp_of_mem fun hx _ related => ?_
  rintro rfl
  exact acyclic _ (reached _ hx) related

theorem length_le_of_offered {names : List String} (nodup : names.Nodup)
    (offered : ∀ name ∈ names, p.offers name = true) : names.length ≤ p.length := by
  have sub : names ⊆ p.map Prod.fst := by
    intro name hn
    obtain ⟨content, found⟩ := Option.isSome_iff_exists.1 (offered name hn)
    exact List.mem_map.2 ⟨_, mem_of_lookup found, rfl⟩
  simpa using (nodup.subperm sub).length_le

end Provided

/-- Filling comes to an end, with some bound on the nesting, if and only if no name under which a slot of
the body gives way to content leads to a cycle. A bound that is too small is the only failure. -/
theorem termination_of_fill {p : Provided} {body : Node} (fillable : body.Fillable r)
    (content : ∀ entry ∈ p, entry.2.Fillable r) :
    ((∃ depth out, fillNodes r (p.filling r depth) body.children = .ok out) ↔
      ¬ ∃ name last, p.Activates r body name ∧ ReflTransGen (p.Leads r) name last ∧
        TransGen (p.Leads r) last last) ∧
    ∀ depth e, fillNodes r (p.filling r depth) body.children = .error e → e = .fault .tooDeep := by
  have blocks : ∀ entry ∈ p, entry.2.isBlock = true := fun entry he => (content entry he).isBlock
  refine ⟨⟨?_, ?_⟩, ?_⟩
  · rintro ⟨depth, run⟩ ⟨name, last, activates, path, cycle⟩
    obtain ⟨inner, found, nests⟩ := Provided.nestsUnder_of_reflTransGen blocks path
      (Provided.nestsUnder_of_cycle blocks cycle depth)
    refine (Provided.exists_fillNodes_iff content fillable).1 run ?_
    exact (Provided.nests_succ_iff fillable.isBlock).2 ⟨name, inner, activates, found, nests⟩
  · intro acyclic
    refine ⟨p.length, (Provided.exists_fillNodes_iff content fillable).2 fun deep => ?_⟩
    obtain ⟨names, length, chain, offered, activates⟩ :=
      Provided.exists_chain_of_nests blocks fillable.isBlock deep
    cases names with
    | nil => simp at length
    | cons first rest =>
      have nodup := Provided.nodup_of_isChain chain fun name path cycle =>
        acyclic ⟨first, name, activates first rfl, path, cycle⟩
      have short := Provided.length_le_of_offered nodup offered
      omega
  · exact fun depth e run => (Provided.nests_of_fillNodes_eq_error content fillable run).1

instance (n : Node) : Decidable (n.Fillable r) :=
  decidable_of_iff (n.isBlock = true ∧ n.isWellFormed = true ∧
      ∀ s ∈ n.walk, s.isSlot = true → (s.slotName r).isOk = true)
    ⟨fun h => ⟨h.1, h.2.1, fun s hs isSlot => exists_ok_of_isOk (h.2.2 s hs isSlot)⟩,
      fun h => ⟨h.isBlock, h.isWellFormed, fun s hs isSlot => by
        obtain ⟨name, named⟩ := h.named s hs isSlot
        rw [named]
        rfl⟩⟩

def endlessContent : Provided := [("head", block {} [namedSlot "head" []])]

theorem termination_slottedBody :
    (∃ depth out, fillNodes {} (slottedContent.filling {} depth) slottedBody.children = .ok out) ∧
    (¬ ∃ name last, slottedContent.Activates {} slottedBody name ∧
      ReflTransGen (slottedContent.Leads {}) name last ∧ TransGen (slottedContent.Leads {}) last last) ∧
    ¬ ∃ depth out, fillNodes {} (endlessContent.filling {} depth) slottedBody.children = .ok out := by
  have fillable : slottedBody.Fillable {} := by decide +kernel
  have ends : ∃ depth out, fillNodes {} (slottedContent.filling {} depth) slottedBody.children = .ok out :=
    ⟨1, exists_ok_of_isOk (by decide +kernel)⟩
  refine ⟨ends, (termination_of_fill fillable (by decide +kernel)).1.1 ends, fun endless => ?_⟩
  have activates : ∀ n below, n.isBlock = true → namedSlot "head" below ∈ n.children →
      endlessContent.Activates {} n "head" := by
    intro n below isBlock member
    exact (Provided.activates_iff isBlock).2
      ⟨by decide +kernel, _, member, _, self_mem_walkUntil _ _, rfl, rfl⟩
  refine (termination_of_fill fillable (by decide +kernel)).1.1 endless
    ⟨"head", "head", ?_, .refl, .single ?_⟩
  · exact activates slottedBody [bareCall "Old" []] rfl (by simp [slottedBody, block, children])
  · exact ⟨block {} [namedSlot "head" []], rfl, activates _ [] rfl (by simp [block, children])⟩

end PugComponents

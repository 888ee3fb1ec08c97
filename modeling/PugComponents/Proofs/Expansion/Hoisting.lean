import PugComponents.Proofs.Definition.Hoisted

/-! Moving a definition out of another one to the end of the template. As long as the definitions around
it do not see it, nothing changes; but they do see it, among other things, where they look for the
element that receives the attributes of a call. -/

namespace PugComponents

open Node Outcome

variable {analysis : Definition.Analysis} {config : Config} {strict : Prop} {pos : Position}
  {head : Sequence} {nodes nodes' : List Node} {b tree : Node} {reg reg' : Registry}

theorem Registry.thinsTo_of_perm {ds ds' : List Definition} (perm : ds.Perm reg.definitions)
    (perm' : ds'.Perm reg'.definitions) (h : List.Forall₂ (Definition.ThinsTo strict) ds ds') :
    reg.ThinsTo strict reg' := by
  intro name
  cases found : reg.get? name with
  | some d =>
    obtain ⟨hd, rfl⟩ := get?_eq_some_iff.1 found
    obtain ⟨d', hd', thins⟩ := exists_of_forall₂_left h (perm.mem_iff.2 hd)
    have found' : reg'.get? d.name = some d' :=
      get?_eq_some_iff.2 ⟨perm'.mem_iff.1 hd', thins.name⟩
    rw [found']
    exact .some thins
  | none =>
    have found' : reg'.get? name = none := by
      rw [get?_eq_none_iff]
      intro taken
      obtain ⟨d', hd', rfl⟩ := List.mem_map.1 taken
      obtain ⟨d, hd, thins⟩ := exists_of_forall₂_right h (perm'.mem_iff.2 hd')
      refine get?_eq_none_iff.1 found ?_
      exact thins.name ▸ List.mem_map_of_mem (perm.mem_iff.1 hd)
    rw [found']
    exact .none

/-- The definitions among some nodes can be read like those among others, in another order. -/
structure ReadAlike (analysis : Definition.Analysis) (config : Config) (strict : Prop)
    (nodes nodes' : List Node) : Prop where
  filed : ∀ n ∈ nodes, n.Filed
  filed' : ∀ n ∈ nodes', n.Filed
  read : ∃ tags, tags.Perm (nodes.flatMap definitions) ∧
    List.Forall₂ (fun tag tag' => Follows True (Definition.ThinsTo strict)
      (Definition.ofNode config tag analysis).value? (Definition.ofNode config tag' analysis).value?)
      tags (nodes'.flatMap definitions)

theorem map_name_eq_of_thinsTo {ds ds' : List Definition}
    (h : List.Forall₂ (Definition.ThinsTo strict) ds ds') :
    ds'.map Definition.name = ds.map Definition.name := by
  induction h with
  | nil => rfl
  | cons first _ ih => rw [List.map_cons, List.map_cons, first.name, ih]

theorem mapM_ofNode_eq_some_iff {tags : List Node} {ds : List Definition} :
    (tags.mapM fun tag => (Definition.ofNode config tag analysis).value?) = some ds ↔
      List.Forall₂ (Detection.Reads analysis config) tags ds := by
  simp only [mapM_eq_some_iff, Run.value?_eq_some_iff]

namespace ReadAlike

variable (h : ReadAlike analysis config strict nodes nodes')
include h

theorem detects_after (detects : Detects analysis config (.seq pos head nodes) reg) :
    ∃ reg', Detects analysis config (.seq pos head nodes') reg' ∧ reg.ThinsTo strict reg' := by
  obtain ⟨tags, perm, alike⟩ := h.read
  obtain ⟨ds, read, same⟩ := List.perm_comp_forall₂ perm (detects_seq_iff.1 detects).2
  obtain ⟨ds', read', thins⟩ := (Follows.mapM alike).ahead ds (mapM_ofNode_eq_some_iff.2 read)
  have nodup : (ds'.map Definition.name).Nodup := by
    rw [map_name_eq_of_thinsTo thins]
    exact (same.map _).nodup_iff.2 reg.nodup
  exact ⟨⟨ds', nodup⟩, detects_seq_iff.2 ⟨h.filed', mapM_ofNode_eq_some_iff.1 read'⟩,
    Registry.thinsTo_of_perm same (.refl _) thins⟩

theorem detects_before (detects : Detects analysis config (.seq pos head nodes') reg') :
    ∃ reg, Detects analysis config (.seq pos head nodes) reg ∧ reg.ThinsTo strict reg' := by
  obtain ⟨tags, perm, alike⟩ := h.read
  obtain ⟨ds', read', thins⟩ :=
    (Follows.mapM alike).back trivial _ (mapM_ofNode_eq_some_iff.2 (detects_seq_iff.1 detects).2)
  obtain ⟨ds, read, same⟩ := List.perm_comp_forall₂ perm.symm (mapM_ofNode_eq_some_iff.1 read')
  have nodup : (ds.map Definition.name).Nodup := by
    rw [(same.map _).nodup_iff, ← map_name_eq_of_thinsTo thins]
    exact reg'.nodup
  exact ⟨⟨ds, nodup⟩, detects_seq_iff.2 ⟨h.filed, read⟩,
    Registry.thinsTo_of_perm same.symm (.refl _) thins⟩

end ReadAlike

theorem follows_ofNode_self {tag : Node} (wf : tag.isWellFormed = true)
    (isDefinition : tag.isDefinition = true) :
    Follows True (Definition.ThinsTo strict) (Definition.ofNode config tag analysis).value?
      (Definition.ofNode config tag analysis).value? := by
  cases read : (Definition.ofNode config tag analysis).value? with
  | none => exact .none
  | some d =>
    have describes := Definition.describes_of_ofNode isDefinition (Run.value?_eq_some_iff.1 read)
    exact .some (.refl fun n hn => lacks_isMisfiled (describes.isWellFormed wf n hn))

section Outcomes

variable {call : Node → Recorded (List Node)}

theorem exists_expandNode_of_mem_walk {n n' m : Node} (run : (expandNode call n).value? = some n')
    (hm : m ∈ n.walk) : ∃ m', (expandNode call m).value? = some m' := by
  induction n using childInduction generalizing n' with
  | step n ih =>
    rcases mem_walk_iff.1 hm with rfl | ⟨c, hc, hm⟩
    · exact ⟨n', run⟩
    · rw [Run.value?_eq_some_iff] at run
      simp only [Run.value?_eq_some_iff] at ih ⊢
      obtain ⟨part, piece, -⟩ := (expandNode_eq_ok run).exists_piece_subset hc
      cases piece with
      | single _ run => exact ih c hc run hm
      | listed _ expanded =>
        cases expanded with
        | called _ run _ => exact ih c hc run hm
        | kept _ run => exact ih c hc run hm

theorem outcome_of_isDefinition (isDefinition : b.isDefinition = true) {b' : Node}
    (run : (expandNode call b).value? = some b') : outcome call b = some [] := by
  have isDefinition' : b'.isDefinition = true := by
    rw [isDefinition_eq_of_tag?_eq (tag?_of_expandNode (Run.value?_eq_some_iff.1 run)), isDefinition]
  rw [outcome, expansion, run, Option.bind_some,
    replacement_of_isDefinition isDefinition', Option.bind_some, gather_singleton, remainder,
    withoutDefinitions_of_isDefinition isDefinition']
  rfl

theorem gather_outcome_concat_iff {out : List Node} (isDefinition : b.isDefinition = true) :
    gather (outcome call) (nodes ++ [b]) = some out ↔
      gather (outcome call) nodes = some out ∧ ∃ b', (expandNode call b).value? = some b' := by
  rw [gather_append_eq_some_iff, gather_singleton]
  constructor
  · rintro ⟨first, others, here, there, rfl⟩
    obtain rfl := eq_nil_of_outcome isDefinition there
    simp only [outcome, expansion, Option.bind_eq_some_iff] at there
    obtain ⟨-, ⟨-, ⟨b', run, -⟩, -⟩, -⟩ := there
    exact ⟨by rwa [List.append_nil], b', run⟩
  · rintro ⟨here, b', run⟩
    exact ⟨out, [], here, outcome_of_isDefinition isDefinition run, List.append_nil out⟩

/-- A definition at the end of a template has to be expanded, and leaves nothing behind. -/
theorem finish_concat_iff (isDefinition : b.isDefinition = true) :
    (Session.finish config reg (.seq pos head (nodes ++ [b]))).value? = some tree ↔
      (Session.finish config reg (.seq pos head nodes)).value? = some tree ∧
        ∃ b', ((Expansion.mk reg config).tree [] b).value? = some b' := by
  simp only [value?_finish_seq, Option.map_eq_some_iff, gather_outcome_concat_iff isDefinition,
    Expansion.tree]
  tauto

theorem exists_tree_of_finish {n m : Node} (h : (Session.finish config reg n).value? = some tree)
    (hm : m ∈ n.walk) : ∃ m', ((Expansion.mk reg config).tree [] m).value? = some m' := by
  rw [Session.finish, Run.value?_bind, Option.bind_eq_some_iff] at h
  obtain ⟨n', run, -⟩ := h
  exact exists_expandNode_of_mem_walk run hm

end Outcomes

section Hoisting

variable (wf : (Node.seq pos head nodes).isWellFormed = true) (slotFree : b.SlotFree)
  (taken : TakenOut (Definition.Unseen analysis config) b (.seq pos head nodes) (.seq pos head nodes'))
include wf slotFree taken

theorem read_of_takenOut (idle : b.Idle strict) :
    ∃ tags, tags.Perm (nodes.flatMap definitions) ∧
      List.Forall₂ (fun tag tag' => Follows True (Definition.ThinsTo strict)
        (Definition.ofNode config tag analysis).value? (Definition.ofNode config tag' analysis).value?)
        tags ((nodes' ++ [b]).flatMap definitions) := by
  obtain ⟨before, after, split, left⟩ := taken.definitions_split
  rw [definitions_seq] at split left
  have order : (before ++ after ++ b.definitions).Perm (nodes.flatMap definitions) := by
    rw [split, List.append_assoc]
    exact List.perm_append_comm.append_left before
  have declared : ∀ tag ∈ before ++ after ++ b.definitions,
      tag.isWellFormed = true ∧ tag.isDefinition = true := by
    intro tag htag
    rw [order.mem_iff, ← definitions_seq pos head] at htag
    obtain ⟨reached, isDefinition⟩ := List.mem_filter.1 htag
    exact ⟨isWellFormed_of_mem_walk wf reached, isDefinition⟩
  obtain ⟨kept, moved⟩ := List.forall_mem_append.1 declared
  refine ⟨_, order, ?_⟩
  rw [List.flatMap_append, List.flatMap_singleton]
  refine List.rel_append ?_ (List.forall₂_same.2 fun tag htag =>
    follows_ofNode_self (moved tag htag).1 (moved tag htag).2)
  refine ((List.forall₂_and_left _ _).2 ⟨kept, left⟩).imp ?_
  rintro tag tag' ⟨⟨wf, isDefinition⟩, rfl | ⟨taken, unseen⟩⟩
  · exact follows_ofNode_self wf isDefinition
  · refine Definition.follows_ofNode wf isDefinition ?_ ?_ (taken.thinned (lacks_isMisfiled wf)) unseen
    · rintro _ rfl
      exact idle
    · rintro _ rfl
      exact slotFree

theorem readAlike_of_takenOut (idle : b.Idle strict) :
    ReadAlike analysis config strict nodes (nodes' ++ [b]) := by
  have thinned := taken.thinned (lacks_isMisfiled wf)
  have wfb := isWellFormed_of_mem_walk wf taken.mem_walk
  have here := (isWellFormed_seq.1 wf).2.2
  have there := (isWellFormed_seq.1 (thinned.isWellFormed wf)).2.2
  have filed : ∀ {n : Node}, n.isWellFormed = true → n.Filed := fun wf m hm _ => lacks_isMisfiled wf m hm
  refine ⟨fun n hn => filed (here n hn), fun n hn => ?_, read_of_takenOut wf slotFree taken idle⟩
  rcases List.mem_append.1 hn with hn | hn
  · exact filed (there n hn)
  · exact List.mem_singleton.1 hn ▸ filed wfb

theorem thinned_of_takenOut (idle : b.Idle strict) :
    Thinned (Idle strict) (.seq pos head nodes) (.seq pos head nodes') := by
  refine (taken.thinned (lacks_isMisfiled wf)).imp ?_
  rintro _ rfl
  exact idle

/-- A definition without slots that the definitions around it do not see may be moved to the end of the
template, which is still expanded to the same tree. The way back is open if the definition calls nothing:
a call in it is expanded inside of the component around it, and may fail only there. -/
theorem hoisted_of_takenOut (isDefinition : b.isDefinition = true) :
    (∀ tree, (expand config (.seq pos head nodes) analysis).result = .ok tree →
      (expand config (.seq pos head (nodes' ++ [b])) analysis).result = .ok tree) ∧
    (b.CallFree → ∀ tree, (expand config (.seq pos head (nodes' ++ [b])) analysis).result = .ok tree →
      (expand config (.seq pos head nodes) analysis).result = .ok tree) := by
  have wfb := isWellFormed_of_mem_walk wf taken.mem_walk
  simp only [expand_eq_ok_iff]
  simp only [← Run.value?_eq_some_iff, finish_concat_iff isDefinition]
  constructor
  -- What the definition is expanded to inside of a component does not matter, only that it is expanded.
  · rintro tree ⟨reg, detects, finished⟩
    have idle : b.Idle False := ⟨isDefinition, False.elim⟩
    obtain ⟨reg', detects', related⟩ := (readAlike_of_takenOut wf slotFree taken idle).detects_after detects
    obtain ⟨_, finished', rfl⟩ :=
      (follows_finish related (thinned_of_takenOut wf slotFree taken idle)).ahead tree finished
    obtain ⟨b', run⟩ := exists_tree_of_finish finished taken.mem_walk
    obtain ⟨b'', run', -⟩ := (Expansion.follows_tree related (.refl (lacks_isMisfiled wfb))).ahead b' run
    exact ⟨reg', detects', finished', b'', run'⟩
  -- Without slots and calls it stays what it is in every component that it is put back into.
  · rintro callFree tree ⟨reg', detects', finished', -⟩
    have slotless : b.Lacks isSlot := by
      rwa [SlotFree, walkUntil_eq_walk callFree] at slotFree
    have idle : b.Idle True := ⟨isDefinition, fun _ => ⟨wfb, slotless, callFree⟩⟩
    obtain ⟨reg, detects, related⟩ := (readAlike_of_takenOut wf slotFree taken idle).detects_before detects'
    obtain ⟨_, finished, rfl⟩ :=
      (follows_finish related (thinned_of_takenOut wf slotFree taken idle)).back trivial tree finished'
    exact ⟨reg, detects, finished⟩

end Hoisting

def noteTag : Node := plainTag "component" [plainText "Note()", plainTag "em" []]

def cardTag (inner : List Node) : Node :=
  plainTag "component" ([plainText "Card()"] ++ noteTag :: inner)

def bareCardTag (inner : List Node) : Node :=
  plainTag "component" ([plainText "Card()"] ++ inner)

def cardCall : Node :=
  .owner {} (.tag { label := .str "Card", attrs := [{ name := .str "class", val := .str "'wide'" }] }) none

def cardPage (inner : List Node) : Node := block {} [cardTag inner, cardCall]

def hoistedPage (inner : List Node) : Node := block {} [bareCardTag inner, cardCall, noteTag]

theorem takenOut_cardPage {unseen : Node → Node → Prop} {inner : List Node}
    (hidden : unseen (cardTag inner) (bareCardTag inner)) :
    TakenOut unseen noteTag (cardPage inner) (block {} [bareCardTag inner, cardCall]) := by
  have isDefinition : (cardTag inner).isDefinition = true := rfl
  have body : TakenOut unseen noteTag (cardTag inner) (bareCardTag inner) := .body isDefinition hidden
  exact .within (.seq {} .plain [] [cardCall]) body fun isDefinition => by cases isDefinition

def pairCard : List Node := [plainTag "p" [], plainTag "p" []]

theorem hoisted_pairCard : ∃ tree, (expand {} (cardPage pairCard)).result = .ok tree ∧
    ∀ tree, (expand {} (cardPage pairCard)).result = .ok tree ↔
      (expand {} (hoistedPage pairCard)).result = .ok tree := by
  have wf : (cardPage pairCard).isWellFormed = true := by decide +kernel
  have forwards : TakenOut.SameForwarding (cardTag pairCard) (bareCardTag pairCard) := fun usage _ => rfl
  have taken : TakenOut (Definition.Unseen {} {}) noteTag (cardPage pairCard)
      (block {} [bareCardTag pairCard, cardCall]) :=
    (takenOut_cardPage forwards).of_silent wf (by decide +kernel) rfl rfl
  have slotFree : ∀ m ∈ noteTag.walkUntil isCall, m.isSlot = false := by decide +kernel
  have callFree : ∀ m ∈ noteTag.walk, m.isCall = false := by decide +kernel
  obtain ⟨tree, h⟩ : ∃ tree, (expand {} (cardPage pairCard)).result = .ok tree :=
    Outcome.exists_ok_of_isOk (by decide +kernel)
  obtain ⟨inside, outside⟩ := hoisted_of_takenOut wf slotFree taken (by decide +kernel)
  exact ⟨tree, h, fun tree => ⟨inside tree, outside callFree tree⟩⟩

def singleCard : List Node := [plainTag "div" []]

/-- One element receives the class if the note stands elsewhere; with the note beside it, it does not. -/
theorem seen_singleCard : (cardPage singleCard).isWellFormed = true ∧ noteTag.isDefinition = true ∧
    TakenOut (fun _ _ => True) noteTag (cardPage singleCard)
      (block {} [bareCardTag singleCard, cardCall]) ∧
    ∃ tree tree', (expand {} (cardPage singleCard)).result = .ok tree ∧
      (expand {} (hoistedPage singleCard)).result = .ok tree' ∧
      tree.walk.any isSpreading = false ∧ tree'.walk.any isSpreading = true := by
  have spreading : ∀ {page : Node} {found : Bool},
      (expand {} page).result.toOption.map (fun tree => tree.walk.any isSpreading) = some found →
        ∃ tree, (expand {} page).result = .ok tree ∧ tree.walk.any isSpreading = found := by
    intro page found h
    obtain ⟨tree, run, any⟩ := Option.map_eq_some_iff.1 h
    exact ⟨tree, toOption_eq_some_iff.1 run, any⟩
  have inside : (expand {} (cardPage singleCard)).result.toOption.map
      (fun tree => tree.walk.any isSpreading) = some false := by decide +kernel
  have outside : (expand {} (hoistedPage singleCard)).result.toOption.map
      (fun tree => tree.walk.any isSpreading) = some true := by decide +kernel
  obtain ⟨tree, run, quiet⟩ := spreading inside
  obtain ⟨tree', run', spreads⟩ := spreading outside
  exact ⟨by decide +kernel, by decide +kernel, takenOut_cardPage trivial, tree, tree', run, run', quiet,
    spreads⟩

end PugComponents

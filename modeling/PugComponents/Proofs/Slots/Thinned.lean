import PugComponents.Proofs.Expansion.Agreement
import PugComponents.Proofs.Expansion.Provision
import PugComponents.Proofs.Tree.Thinned

/-! Filling the slots of a thinned body. If a call and a body are thinned, the call provides content for
the same slots, thinned in turn, and what is filled with it is a thinned body again. -/

namespace PugComponents

open Outcome

namespace Node

variable {D : Node → Prop} {strict : Prop} {r : Reporter} {given given' : Filling} {n n' : Node}

def filling? (r : Reporter) (given : Filling) (n : Node) : Option (List Node) :=
  (fillNodes r given [n]).toOption

theorem toOption_fillNodes_eq_gather (r : Reporter) (given : Filling) (ns : List Node) :
    (fillNodes r given ns).toOption = gather (filling? r given) ns := by
  induction ns with
  | nil => rfl
  | cons n ns ih =>
    rw [← List.singleton_append, fillNodes_append, List.singleton_append, gather_cons, ← ih]
    simp only [toOption_bind, toOption_pure, filling?]

theorem filling?_of_notSlot (notSlot : n.isSlot = false) :
    filling? r given n = (fillNode r given n).toOption.map ([·]) := by
  cases n with
  | owner pos head block =>
    simp only [filling?, fillNodes, notSlot, Bool.false_eq_true, if_false, toOption_bind,
      toOption_pure, toOption_ok, Option.bind_some, Option.map_eq_bind]
    rfl
  | _ =>
    simp only [filling?, fillNodes, toOption_bind, toOption_pure, toOption_ok, Option.bind_some,
      Option.map_eq_bind]
    rfl

theorem filling?_of_isSlot {pos : Position} {head : Owner} {block : Option Node}
    (isSlot : (owner pos head block).isSlot = true) :
    filling? r given (owner pos head block) = ((owner pos head block).slotName r).toOption.bind
      fun name => ((given name).getD (fillDefault r given block)).toOption := by
  simp only [filling?, fillNodes, isSlot, if_true, toOption_bind]
  refine Option.bind_congr fun name _ => ?_
  cases given name <;> simp [toOption_bind]

theorem slotName_bare (r : Reporter) (n : Node) : n.bare.slotName r = n.slotName r := by
  cases n with
  | owner pos head block => cases head <;> rfl
  | _ => rfl

theorem slotName_eq_of_bare_eq (h : n'.bare = n.bare) : n'.slotName r = n.slotName r := by
  rw [← slotName_bare, h, slotName_bare]

theorem thinned_slotContent (isSlot : n.isSlot = true) (h : Thinned D n n') :
    Thinned D n.slotContent n'.slotContent := by
  cases h.built with
  | owner pos head child =>
    cases child with
    | none => exact .refl (lacks_iff.2 ⟨rfl, by simp [slotContent, block?, emptyBlock, block, children]⟩)
    | some thinned => exact thinned
  | _ => cases isSlot

theorem callCheck_eq_of_tag?_eq (h : n'.tag? = n.tag?) : n'.callCheck = n.callCheck := by
  rw [callCheck, callCheck, labelFault?, labelFault?, h, isCall_eq_of_tag?_eq h]

theorem toOption_fillOption_eq_mapM (o : Option Node) :
    (fillOption r given o).toOption = o.mapM fun c => (fillNode r given c).toOption := by
  cases o with
  | none => rfl
  | some c =>
    simp only [fillOption, toOption_bind, toOption_pure, Option.mapM_some, Option.map_eq_map,
      Option.map_eq_bind]
    rfl

theorem toOption_fillFile_eq_rebuild (file : Option Node) :
    (fillFile r given file).toOption =
      rebuild.rebuildFile (fun c => (fillNode r given c).toOption) file := by
  cases file with
  | none => rfl
  | some n =>
    cases n with
    | fileReference pos path fullPath ast =>
      simp only [fillFile, rebuild.rebuildFile, toOption_bind, toOption_pure,
        toOption_fillOption_eq_mapM, Option.map_eq_bind]
      rfl
    | _ => rfl

theorem toOption_fillNode_eq_rebuild (n : Node) :
    (fillNode r given n).toOption = n.callCheck.toOption.bind fun isCall =>
      if isCall then some n
      else rebuild (fun c => (fillNode r given c).toOption) (filling? r given) n := by
  cases n with
  | owner pos head block =>
    simp only [fillNode, toOption_bind]
    refine Option.bind_congr fun isCall _ => ?_
    cases isCall with
    | true => rfl
    | false =>
      simp only [Bool.false_eq_true, if_false, toOption_bind, toOption_pure, rebuild,
        toOption_fillOption_eq_mapM, Option.map_eq_bind]
      rfl
  | leaf | rawInclusion | fileReference => rfl
  | seq | fork | inclusion | extension =>
    have notCall : ∀ n : Node, n.tag? = none → n.callCheck.toOption = some false := by
      intro n untagged
      simp [callCheck, labelFault?, untagged, isCall_eq_false_of_tag? untagged]
    rw [notCall _ rfl]
    simp only [fillNode, toOption_bind, toOption_pure, rebuild, Option.bind_some, Bool.false_eq_true,
      if_false, toOption_fillOption_eq_mapM, toOption_fillFile_eq_rebuild,
      toOption_fillNodes_eq_gather, Option.map_eq_bind]
    rfl

def GivesThinned (strict : Prop) (D : Node → Prop) (given given' : Filling) : Prop :=
  ∀ name, Option.Rel (fun part part' => Follows strict (Thins D) part.toOption part'.toOption)
    (given name) (given' name)

theorem follows_fillDefault {block block' : Option Node} (child : Option.Rel (Thinned D) block block')
    (each : ∀ c ∈ block, ∀ c', Thinned D c c' →
      Follows strict (Thinned D) (fillNode r given c).toOption (fillNode r given' c').toOption) :
    Follows strict (Thins D) (fillDefault r given block).toOption
      (fillDefault r given' block').toOption := by
  have nodes : ∀ given pos head nodes, (fillDefault r given (some (seq pos head nodes))).toOption =
      (fillNode r given (seq pos head nodes)).toOption.map children := by
    intro given pos head nodes
    simp only [fillDefault, fillNode, toOption_bind, toOption_pure, Option.map_bind]
    exact (Option.bind_fun_some _).symm
  cases child with
  | none => exact .some .nil
  | @some c c' thinned =>
    have filled := each c rfl c' thinned
    cases thinned.built with
    | seq pos head pieces =>
      rw [nodes, nodes]
      exact filled.map fun _ _ thinned => thinned.thins_children
    | _ => exact .none

theorem follows_fillNode (thinned : Thinned D n n')
    (single : ∀ c ∈ n.children, ∀ c', Thinned D c c' →
      Follows strict (Thinned D) (fillNode r given c).toOption (fillNode r given' c').toOption)
    (listed : ∀ c ∈ n.children, ∀ part, Remnant D c part →
      Follows strict (Thins D) (filling? r given c) (gather (filling? r given') part)) :
    Follows strict (Thinned D) (fillNode r given n).toOption (fillNode r given' n').toOption := by
  rw [toOption_fillNode_eq_rebuild, toOption_fillNode_eq_rebuild n',
    callCheck_eq_of_tag?_eq thinned.tag?_eq]
  cases check : n.callCheck with
  | error e => exact .none
  | ok isCall =>
    cases isCall with
    | true => exact .some thinned
    | false =>
      refine (follows_rebuild thinned.built single listed).yielded.imp
        fun m _ ⟨run, _, built⟩ => .mk built fun isCall => ?_
      rw [isCall_eq_of_tag?_eq (tag?_eq_of_bare_eq (bare_of_rebuild run)),
        isCall_eq_of_callCheck check] at isCall
      cases isCall

/-- What is given for a slot is given for the thinned one, and so is its default content. -/
theorem follows_slot (gives : GivesThinned strict D given given') (isSlot : n.isSlot = true)
    (thinned : Thinned D n n')
    (single : ∀ c ∈ n.children, ∀ c', Thinned D c c' →
      Follows strict (Thinned D) (fillNode r given c).toOption (fillNode r given' c').toOption) :
    Follows strict (Thins D) (filling? r given n) (filling? r given' n') := by
  cases thinned.built with
  | @owner pos head block block' child =>
    have isSlot' : (owner pos head block').isSlot = true :=
      isSlot_eq_of_tag?_eq thinned.tag?_eq ▸ isSlot
    rw [filling?_of_isSlot isSlot, filling?_of_isSlot isSlot', slotName_eq_of_bare_eq thinned.bare_eq]
    refine (Follows.refl _).bind ?_
    rintro name _ rfl
    have content := gives name
    generalize given name = here at content ⊢
    generalize given' name = there at content ⊢
    cases content with
    | none => exact follows_fillDefault child fun c hc => single c (Option.mem_toList.2 hc)
    | some same => exact same
  | _ => cases isSlot

theorem follows_filling? (gives : GivesThinned strict D given given')
    (drop : ∀ c, D c → Follows strict (Thins D) (filling? r given c) (some [])) (n : Node) :
    (∀ n', Thinned D n n' →
      Follows strict (Thinned D) (fillNode r given n).toOption (fillNode r given' n').toOption) ∧
    ∀ part, Remnant D n part →
      Follows strict (Thins D) (filling? r given n) (gather (filling? r given') part) := by
  induction n using childInduction with
  | step n ih =>
    have filled : ∀ n', Thinned D n n' →
        Follows strict (Thinned D) (fillNode r given n).toOption (fillNode r given' n').toOption :=
      fun n' thinned => follows_fillNode thinned (fun c hc => (ih c hc).1) fun c hc => (ih c hc).2
    refine ⟨filled, fun part remnant => ?_⟩
    cases remnant with
    | dropped idle => exact drop n idle
    | @kept _ n' thinned =>
      rw [gather_singleton]
      cases isSlot : n.isSlot with
      | true => exact follows_slot gives isSlot thinned fun c hc => (ih c hc).1
      | false =>
        have isSlot' : n'.isSlot = false := isSlot_eq_of_tag?_eq thinned.tag?_eq ▸ isSlot
        rw [filling?_of_notSlot isSlot, filling?_of_notSlot isSlot']
        exact (filled n' thinned).map fun _ _ thinned => .single (.kept thinned)

theorem follows_fillNodes (gives : GivesThinned strict D given given')
    (drop : ∀ c, D c → Follows strict (Thins D) (filling? r given c) (some [])) {ns ns' : List Node}
    (h : Thins D ns ns') :
    Follows strict (Thins D) (fillNodes r given ns).toOption (fillNodes r given' ns').toOption := by
  rw [toOption_fillNodes_eq_gather, toOption_fillNodes_eq_gather]
  exact follows_gather h fun n _ => (follows_filling? gives drop n).2

end Node

namespace Provided

open Node

variable {D : Node → Prop} {strict : Prop} {r : Reporter} {p p' : Provided}

def ThinsTo (D : Node → Prop) (p p' : Provided) : Prop :=
  List.Forall₂ (fun entry entry' => entry'.1 = entry.1 ∧ Thinned D entry.2 entry'.2) p p'

theorem ThinsTo.names_eq (h : p.ThinsTo D p') : p'.map Prod.fst = p.map Prod.fst := by
  induction h with
  | nil => rfl
  | cons first _ ih => rw [List.map_cons, List.map_cons, first.1, ih]

theorem ThinsTo.has_eq (h : p.ThinsTo D p') (name : String) : p'.has name = p.has name := by
  have byNames : ∀ p : Provided, p.has name = (p.map Prod.fst).any (· == name) := by
    intro p
    rw [List.any_map]
    rfl
  rw [byNames, byNames p, h.names_eq]

theorem ThinsTo.lookup_rel (h : p.ThinsTo D p') (name : String) :
    Option.Rel (Thinned D) (p.lookup name) (p'.lookup name) := by
  induction h with
  | nil => exact .none
  | @cons entry entry' p p' first _ ih =>
    obtain ⟨key, content⟩ := entry
    obtain ⟨key', content'⟩ := entry'
    obtain ⟨same, thinned⟩ := first
    dsimp only at same thinned
    subst same
    rw [List.lookup_cons, List.lookup_cons]
    cases name == key' with
    | true => exact .some thinned
    | false => exact ih

theorem ThinsTo.toOption_check (h : p.ThinsTo D p') (defined : List String)
    (location location' : Location) :
    (p.check r defined location).toOption = (p'.check r defined location').toOption := by
  have byNames : ∀ (p : Provided) location, (p.check r defined location).toOption =
      if (p.map Prod.fst).any (fun name => name != defaultSlot && !defined.contains name) then none
      else some () := by
    intro p location
    rw [List.any_map, check]
    split
    · rename_i entry found
      rw [if_pos]
      · rfl
      · exact List.any_eq_true.2 ⟨entry, List.mem_of_find?_eq_some found, List.find?_some found⟩
    · rename_i absent
      rw [if_neg]
      · rfl
      · rw [List.find?_eq_none] at absent
        simpa using absent
  rw [byNames, byNames p', h.names_eq]

section Filling

variable (drop : ∀ given c, D c → Follows strict (Thins D) (filling? r given c) (some []))
include drop

theorem ThinsTo.givesThinned (h : p.ThinsTo D p') (depth : Nat) :
    GivesThinned strict D (p.filling r depth) (p'.filling r depth) := by
  induction depth with
  | zero =>
    intro name
    have found := h.lookup_rel name
    rw [filling, filling]
    generalize p.lookup name = here at found ⊢
    generalize p'.lookup name = there at found ⊢
    cases found with
    | none => exact .none
    | some => exact .some .none
  | succ depth ih =>
    intro name
    have found := h.lookup_rel name
    rw [filling, filling]
    generalize p.lookup name = here at found ⊢
    generalize p'.lookup name = there at found ⊢
    cases found with
    | none => exact .none
    | some thinned =>
      refine .some ?_
      cases thinned.built with
      | seq pos head pieces => exact follows_fillNodes ih (drop _) ⟨_, pieces, rfl⟩
      | _ => exact .none

theorem ThinsTo.follows_fill (h : p.ThinsTo D p') {ns ns' : List Node} (thins : Thins D ns ns') :
    Follows strict (Thins D) (p.fill r ns).toOption (p'.fill r ns').toOption :=
  follows_fillNodes (h.givesThinned drop depthLimit) (drop _) thins

end Filling

theorem addSlots_rel {before before' : Provided} (h : before.ThinsTo D before') {slots slots' : List Node}
    (isSlot : ∀ n ∈ slots, n.isSlot = true) (thinned : List.Forall₂ (Thinned D) slots slots') :
    Option.Rel (ThinsTo D) (addSlots r before slots).toOption (addSlots r before' slots').toOption := by
  induction thinned generalizing before before' with
  | nil => exact .some h
  | @cons slot slot' slots slots' first _ ih =>
    rw [List.forall_mem_cons] at isSlot
    have named : slot'.slotName r = slot.slotName r := slotName_eq_of_bare_eq first.bare_eq
    rw [addSlots, addSlots, toOption_bind, toOption_bind, named]
    cases slot.slotName r with
    | error e => exact .none
    | ok name =>
      simp only [toOption_ok, Option.bind_some, h.has_eq]
      split
      · exact .none
      · refine ih ?_ isSlot.2
        exact List.rel_append h (.cons ⟨rfl, thinned_slotContent isSlot.1 first⟩ .nil)

theorem isEmpty_bareNodes (nodes : List Node) : (bareNodes nodes).isEmpty = !nodes.any isBare := by
  rw [Bool.eq_iff_iff]
  simp [bareNodes, isBare]

variable (isDefinition : ∀ n, D n → n.isDefinition = true)
include isDefinition

theorem ofNodes_rel {call call' : Node} (pos : call'.pos = call.pos) {nodes nodes' : List Node}
    (thins : Thins D nodes nodes') (content : nodes'.any isBare = nodes.any isBare) :
    Option.Rel (ThinsTo D) (ofNodes r call nodes).toOption (ofNodes r call' nodes').toOption := by
  have slots : List.Forall₂ (Thinned D) (nodes.filter isSlot) (nodes'.filter isSlot) := by
    refine (thins.filter fun n n' h => isSlot_eq_of_tag?_eq h.tag?_eq).forall₂ fun n hn idle => ?_
    have isSlot := (List.mem_filter.1 hn).2
    rw [isSlot_eq_false_of_isDefinition (isDefinition n idle)] at isSlot
    cases isSlot
  have bare : Thins D (bareNodes nodes) (bareNodes nodes') := thins.filter fun n n' h => h.isBare_eq
  have added : Option.Rel (ThinsTo D) (addSlots r [] (nodes.filter isSlot)).toOption
      (addSlots r [] (nodes'.filter isSlot)).toOption :=
    addSlots_rel .nil (fun n hn => (List.mem_filter.1 hn).2) slots
  rw [ofNodes, ofNodes, toOption_bind, toOption_bind, isEmpty_bareNodes, isEmpty_bareNodes, content, pos]
  generalize (addSlots r [] (nodes.filter isSlot)).toOption = here at added ⊢
  generalize (addSlots r [] (nodes'.filter isSlot)).toOption = there at added ⊢
  cases added with
  | none => exact .none
  | some provides =>
    simp only [Option.bind_some, provides.has_eq]
    split
    · exact .some provides
    · split
      · exact .none
      · refine .some (List.rel_append provides (.cons ⟨rfl, ?_⟩ .nil))
        exact bare.thinned_seq call.pos .plain

theorem ofCall_rel {call call' : Node} (isCall : call.isCall = true) (thinned : Thinned D call call') :
    Option.Rel (ThinsTo D) (ofCall r call).toOption (ofCall r call').toOption := by
  have content := thinned.content isCall
  cases thinned.built with
  | owner pos head child =>
    cases child with
    | none => exact .some .nil
    | @some b b' below =>
      cases below.built with
      | seq blockPos blockHead pieces =>
        refine ofNodes_rel isDefinition rfl ⟨_, pieces, rfl⟩ ?_
        simpa [hasBare, children, nodes?] using content
      | _ => exact .none
  | _ => cases isCall

end Provided

end PugComponents

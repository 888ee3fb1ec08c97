import PugComponents.Attributes.Unescape
import PugComponents.Proofs.Tree.Calls
import PugComponents.Proofs.Tree.WellFormed

/-! What writing attributes as they are does to a tree. Only attributes of tags change, so the tree has
the same calls and slots in the same places, and it stays well-formed. -/

namespace PugComponents.Node

section Heads

variable (f : Owner → Owner)

section Parts

attribute [local simp] mapOwners mapOwnersAll mapOwnersOption

theorem mapOwnersAll_eq_map (ns : List Node) : mapOwnersAll f ns = ns.map (mapOwners f) := by
  induction ns with
  | nil => simp
  | cons n ns ih => simp [ih]

theorem mapOwnersOption_eq_map (o : Option Node) : mapOwnersOption f o = o.map (mapOwners f) := by
  cases o <;> simp

theorem ast?_mapOwnersFile (file : Option Node) :
    ast? (mapOwnersFile f file) = (ast? file).map (mapOwners f) := by
  unfold mapOwnersFile
  split
  · simp [ast?, mapOwnersOption_eq_map]
  · rename_i noFile
    unfold ast?
    split
    · exact absurd rfl (noFile _ _ _ _)
    · rfl

theorem children_mapOwners (n : Node) :
    (n.mapOwners f).children = n.children.map (mapOwners f) := by
  cases n <;>
    simp [children, mapOwnersAll_eq_map, mapOwnersOption_eq_map, ast?_mapOwnersFile,
      Option.toList_map]

end Parts

theorem walk_mapOwners (n : Node) : (n.mapOwners f).walk = n.walk.map (mapOwners f) := by
  induction n using childInduction with
  | step n ih =>
    rw [walk_eq, walk_eq n, children_mapOwners, List.flatMap_map, List.map_cons, List.map_flatMap,
      List.flatMap_congr ih]

theorem isBlock_mapOwners (n : Node) : (n.mapOwners f).isBlock = n.isBlock := by
  cases n <;> simp [mapOwners, isBlock]

theorem isAlternativeOf_mapOwners (head : Fork) (n : Node) :
    (n.mapOwners f).isAlternativeOf head = n.isAlternativeOf head := by
  have conditional : (n.mapOwners f).isConditional = n.isConditional := by
    cases n with
    | fork pos head main alternate => cases head <;> simp [mapOwners, isConditional]
    | _ => simp [mapOwners, isConditional]
  cases head <;> simp [isAlternativeOf, isBlock_mapOwners, conditional]

variable {f}

theorem admits_of_mapOwners {admits : Node → Bool} {o : Option Node}
    (byHead : ∀ n, admits (n.mapOwners f) = admits n)
    (before : ∀ c ∈ o, admits c = true ∧ c.isWellFormed = true)
    (after : ∀ c ∈ o, c.isWellFormed = true → (c.mapOwners f).isWellFormed = true) :
    ∀ c ∈ mapOwnersOption f o, admits c = true ∧ c.isWellFormed = true := by
  intro c hc
  rw [mapOwnersOption_eq_map] at hc
  obtain ⟨d, hd, rfl⟩ := Option.map_eq_some_iff.1 hc
  obtain ⟨admitted, wf⟩ := before d hd
  exact ⟨(byHead d).trans admitted, after d hd wf⟩

theorem isFile_mapOwnersFile {file : Option Node} (before : IsFile file)
    (after : ∀ c ∈ ast? file, c.isWellFormed = true → (c.mapOwners f).isWellFormed = true) :
    IsFile (mapOwnersFile f file) := by
  obtain ⟨n, rfl, isFile, wf⟩ := before
  cases n with
  | fileReference pos path fullPath ast =>
    obtain ⟨typed, parts⟩ := isWellFormed_fileReference.1 wf
    refine ⟨_, by rw [mapOwnersFile], rfl, isWellFormed_fileReference.2 ⟨typed, ?_⟩⟩
    exact admits_of_mapOwners (isBlock_mapOwners f) parts after
  | _ => cases isFile

theorem isWellFormed_mapOwners (typed : ∀ head, head.isTyped = true → (f head).isTyped = true)
    (needs : ∀ head, (f head).needsBlock = head.needsBlock) {n : Node} (wf : n.isWellFormed = true) :
    (n.mapOwners f).isWellFormed = true := by
  induction n using childInduction with
  | step n ih =>
    cases n with
    | leaf => rwa [mapOwners]
    | seq pos head nodes =>
      obtain ⟨posTyped, headTyped, below⟩ := isWellFormed_seq.1 wf
      rw [mapOwners, mapOwnersAll_eq_map]
      refine isWellFormed_seq.2 ⟨posTyped, headTyped, ?_⟩
      intro m hm
      obtain ⟨c, hc, rfl⟩ := List.mem_map.1 hm
      exact ih c hc (below c hc)
    | owner pos head block =>
      obtain ⟨posTyped, headTyped, needed, below⟩ := isWellFormed_owner.1 wf
      rw [mapOwners]
      refine isWellFormed_owner.2 ⟨posTyped, typed head headTyped, ?_, ?_⟩
      · rw [mapOwnersOption_eq_map, Option.isSome_map, needs]
        exact needed
      · exact admits_of_mapOwners (isBlock_mapOwners f) below fun c hc =>
          ih c (Option.mem_toList.2 hc)
    | fork pos head main alternate =>
      obtain ⟨posTyped, headTyped, needed, first, second⟩ := isWellFormed_fork.1 wf
      simp only [children, List.mem_append, Option.mem_toList] at ih
      rw [mapOwners]
      refine isWellFormed_fork.2 ⟨posTyped, headTyped, ?_, ?_, ?_⟩
      · rw [mapOwnersOption_eq_map, Option.isSome_map]
        exact needed
      · exact admits_of_mapOwners (isBlock_mapOwners f) first fun c hc => ih c (.inl hc)
      · exact admits_of_mapOwners (isAlternativeOf_mapOwners f head) second fun c hc =>
          ih c (.inr hc)
    | inclusion pos file block =>
      obtain ⟨posTyped, isFile, below⟩ := isWellFormed_inclusion.1 wf
      rw [mapOwners]
      refine isWellFormed_inclusion.2 ⟨posTyped, isFile_mapOwnersFile isFile ?_, below⟩
      exact fun c hc => ih c (Option.mem_toList.2 hc)
    | extension pos file =>
      obtain ⟨posTyped, isFile⟩ := isWellFormed_extension.1 wf
      rw [mapOwners]
      refine isWellFormed_extension.2 ⟨posTyped, isFile_mapOwnersFile isFile ?_⟩
      exact fun c hc => ih c (Option.mem_toList.2 hc)
    | rawInclusion => rwa [mapOwners]
    | fileReference => rwa [mapOwners]

end Heads

section Unescaping

variable {names : List String}

theorem isTyped_unescape {head : Owner} (typed : head.isTyped = true) :
    (head.unescape names).isTyped = true := by
  cases head with
  | tag element =>
    have keeps : ∀ a : Attribute, a.isTyped = true → (a.unescape names).isTyped = true := by
      intro a typed
      unfold Attribute.unescape
      split
      · simp only [Attribute.isTyped, Bool.and_eq_true] at typed ⊢
        exact ⟨⟨typed.1.1, rfl⟩, typed.2⟩
      · exact typed
    simp only [Owner.unescape, Owner.isTyped, Element.isTyped, Bool.and_eq_true, List.all_map,
      List.all_eq_true, Function.comp_apply] at typed ⊢
    obtain ⟨⟨⟨⟨label, attrs⟩, spreads⟩, selfClosing⟩, isInline⟩ := typed
    exact ⟨⟨⟨⟨label, fun a ha => keeps a (attrs a ha)⟩, spreads⟩, selfClosing⟩, isInline⟩
  | _ => exact typed

theorem isWellFormed_unescape {n : Node} (wf : n.isWellFormed = true) :
    (n.mapOwners (Owner.unescape names)).isWellFormed = true :=
  isWellFormed_mapOwners (fun _ => isTyped_unescape) (fun head => by cases head <;> rfl) wf

theorem label?_unescape (n : Node) : (n.mapOwners (Owner.unescape names)).label? = n.label? := by
  cases n with
  | owner pos head block => cases head <;> simp [mapOwners, Owner.unescape, label?, tag?]
  | _ => simp [mapOwners, label?, tag?]

theorem pos_mapOwners (f : Owner → Owner) (n : Node) : (n.mapOwners f).pos = n.pos := by
  cases n <;> simp [mapOwners, pos]

theorem alike_unescape (n : Node) : Alike n (n.mapOwners (Owner.unescape names)) := by
  induction n using childInduction with
  | step n ih =>
    refine alike_of_label?_eq isWellFormed_unescape (label?_unescape n) (pos_mapOwners _ n) ?_
    rw [children_mapOwners, List.forall₂_map_right_iff]
    exact List.forall₂_same.2 ih

end Unescaping

end PugComponents.Node

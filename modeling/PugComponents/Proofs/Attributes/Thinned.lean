import PugComponents.Proofs.Attributes.Forwarding
import PugComponents.Proofs.Definition.Unescape
import PugComponents.Proofs.Tree.Thinned

/-! Attributes in a body from which definitions were taken out. Attributes are written as they are, and
forwarded, in what is left as in the body itself. -/

namespace PugComponents

namespace Node

/-- A definition; in the strict sense, one that filling and expansion leave as it is. -/
def Idle (strict : Prop) (n : Node) : Prop :=
  n.isDefinition = true ∧ (strict → n.isWellFormed = true ∧ n.Lacks isSlot ∧ n.CallFree)

section Forwarding

variable {D : Node → Prop} {strict : Prop} {n n' : Node}

theorem label?_forward (source : String) (n : Node) : (n.forward source).label? = n.label? := by
  unfold forward
  split
  · exact label?_withSpreads n _
  · rfl

theorem children_forward (source : String) (n : Node) : (n.forward source).children = n.children := by
  unfold forward
  split
  · cases n with
    | owner pos head block => cases head <;> rfl
    | _ => rfl
  · rfl

theorem Idle.forward (h : n.Idle strict) (source : String) : (n.forward source).Idle strict := by
  have label := label?_forward source n
  refine ⟨isDefinition_eq_of_label?_eq label ▸ h.1, fun isStrict => ?_⟩
  obtain ⟨wf, slotless, callFree⟩ := h.2 isStrict
  have below : ∀ {p : Node → Bool}, p (n.forward source) = p n → n.Lacks p →
      (n.forward source).Lacks p := by
    intro p same lacks
    rw [lacks_iff, children_forward, same]
    exact lacks_iff.1 lacks
  exact ⟨(alike_forward source n).isWellFormed wf, below (isSlot_eq_of_label?_eq label) slotless,
    below (isCall_eq_of_label?_eq label) callFree⟩

theorem Idle.forwardAtRoot (h : n.Idle strict) (source : Option String) :
    (n.forwardAtRoot source).Idle strict := by
  rcases forwards_forwardAtRoot source n with same | ⟨source, same⟩
  · rwa [same]
  · exact same ▸ h.forward source

theorem exists_head_of_forward (source : String) (pos : Position) (head : Owner) :
    ∃ head', ∀ block, (owner pos head block).forward source = owner pos head' block := by
  cases head with
  | tag element | interpolatedTag element =>
    cases spreads : element.spreads with
    | nil => exact ⟨_, fun block => by simp only [forward, spreads?, spreads, withSpreads, Node.pos]; rfl⟩
    | cons => exact ⟨_, fun block => by simp only [forward, spreads?, spreads]; rfl⟩
  | mixin head =>
    cases spreads : head.spreads with
    | nil => exact ⟨_, fun block => by simp only [forward, spreads?, spreads, withSpreads, Node.pos]; rfl⟩
    | cons => exact ⟨_, fun block => by simp only [forward, spreads?, spreads]; rfl⟩
  | _ => exact ⟨_, fun block => rfl⟩

theorem Thinned.forward (h : Thinned D n n') (source : String) :
    Thinned D (n.forward source) (n'.forward source) := by
  cases h.built with
  | @owner pos head block block' child =>
    have called := isCall_eq_of_label?_eq (label?_forward source (owner pos head block))
    obtain ⟨head', eq⟩ := exists_head_of_forward source pos head
    rw [eq] at called
    rw [eq, eq]
    exact .mk (.owner pos head' child) fun isCall => h.content (called ▸ isCall)
  | _ => exact h

theorem isRootElement_eq_of_tag?_eq (h : n'.tag? = n.tag?) : n'.isRootElement = n.isRootElement := by
  rw [isRootElement, isRootElement, h, isSlot_eq_of_tag?_eq h]

theorem Thinned.forwardAtRoot (h : Thinned D n n') (source : Option String) :
    Thinned D (n.forwardAtRoot source) (n'.forwardAtRoot source) := by
  cases source with
  | none => exact h
  | some source =>
    rw [Node.forwardAtRoot, Node.forwardAtRoot, isRootElement_eq_of_tag?_eq h.tag?_eq]
    split
    · exact h.forward source
    · exact h

/-- What is forwarded in a body and what is forwarded in the thinned one may differ, if no node of the
thinned one shows it. -/
theorem Thins.forwardAtRoot {ns ns' : List Node} (h : Thins (Idle strict) ns ns')
    {source source' : Option String}
    (same : ∀ n ∈ ns', n.forwardAtRoot source = n.forwardAtRoot source') :
    Thins (Idle strict) (ns.map (Node.forwardAtRoot source)) (ns'.map (Node.forwardAtRoot source')) := by
  obtain ⟨parts, related, rfl⟩ := h
  rw [← List.map_congr_left same]
  clear same
  induction related with
  | nil => exact .nil
  | cons first _ ih =>
    rw [List.flatten_cons, List.map_append, List.map_cons, ← List.singleton_append]
    refine Thins.append (.single ?_) ih
    cases first with
    | dropped idle => exact .dropped (idle.forwardAtRoot source)
    | kept thinned => exact .kept (thinned.forwardAtRoot source)

end Forwarding

section Unescaping

variable {names : List String} {strict : Prop} {n n' : Node}

theorem lacks_mapOwners {f : Owner → Owner} {p : Node → Bool} (same : ∀ n, p (n.mapOwners f) = p n) :
    (n.mapOwners f).Lacks p ↔ n.Lacks p := by
  simp [Lacks, walk_mapOwners, same]

theorem Idle.unescape (h : n.Idle strict) : (n.mapOwners (Owner.unescape names)).Idle strict := by
  refine ⟨isDefinition_eq_of_label?_eq (label?_unescape n) ▸ h.1, fun isStrict => ?_⟩
  obtain ⟨wf, slotless, callFree⟩ := h.2 isStrict
  exact ⟨isWellFormed_unescape wf,
    (lacks_mapOwners fun n => isSlot_eq_of_label?_eq (label?_unescape n)).2 slotless,
    (lacks_mapOwners fun n => isCall_eq_of_label?_eq (label?_unescape n)).2 callFree⟩

theorem isBare_unescape (n : Node) : (n.mapOwners (Owner.unescape names)).isBare = n.isBare := by
  have isComment : (n.mapOwners (Owner.unescape names)).isComment = n.isComment := by
    cases n with
    | owner pos head block => cases head <;> simp [mapOwners, Owner.unescape, isComment]
    | leaf pos head => rw [mapOwners]
    | _ => simp [mapOwners, isComment]
  rw [isBare, isBare, isSlot_eq_of_label?_eq (label?_unescape n), isComment]

theorem hasBare_unescape (n : Node) : (n.mapOwners (Owner.unescape names)).hasBare = n.hasBare := by
  have nodes : ∀ b : Node, ((b.mapOwners (Owner.unescape names)).nodes?.getD []).any isBare =
      (b.nodes?.getD []).any isBare := by
    intro b
    cases b with
    | seq pos head nodes =>
      simp [mapOwners, mapOwnersAll_eq_map, nodes?, List.any_map, Function.comp_def, isBare_unescape]
    | _ => simp [mapOwners, nodes?]
  rw [hasBare, hasBare, children_mapOwners, List.any_map]
  exact congrArg _ (funext nodes)

section Parts

variable {R : Node → Node → Prop} {f : Owner → Owner}

theorem rel_mapOwners {o o' : Option Node} (h : Option.Rel R o o')
    (each : ∀ c ∈ o, ∀ c', R c c' → R (c.mapOwners f) (c'.mapOwners f)) :
    Option.Rel R (mapOwnersOption f o) (mapOwnersOption f o') := by
  cases h with
  | none => exact .none
  | some related => exact .some (each _ rfl _ related)

theorem rebuiltFile_mapOwners {file file' : Option Node} (h : RebuiltFile R file file')
    (each : ∀ c ∈ ast? file, ∀ c', R c c' → R (c.mapOwners f) (c'.mapOwners f)) :
    RebuiltFile R (mapOwnersFile f file) (mapOwnersFile f file') := by
  cases h with
  | none => exact .none
  | some pos path fullPath child => exact .some pos path fullPath (rel_mapOwners child each)

end Parts

theorem Thins.unescape_of_mem {ns ns' : List Node} (h : Thins (Idle strict) ns ns')
    (each : ∀ c ∈ ns, ∀ c', Thinned (Idle strict) c c' → Thinned (Idle strict)
      (c.mapOwners (Owner.unescape names)) (c'.mapOwners (Owner.unescape names))) :
    Thins (Idle strict) (ns.map (mapOwners (Owner.unescape names)))
      (ns'.map (mapOwners (Owner.unescape names))) := by
  obtain ⟨parts, related, rfl⟩ := h
  induction related with
  | nil => exact .nil
  | cons first _ ih =>
    rw [List.forall_mem_cons] at each
    rw [List.flatten_cons, List.map_append, List.map_cons, ← List.singleton_append]
    refine Thins.append (.single ?_) (ih each.2)
    cases first with
    | dropped idle => exact .dropped idle.unescape
    | kept thinned => exact .kept (each.1 _ thinned)

theorem Thinned.unescape (h : Thinned (Idle strict) n n') :
    Thinned (Idle strict) (n.mapOwners (Owner.unescape names)) (n'.mapOwners (Owner.unescape names)) := by
  induction n using childInduction generalizing n' with
  | step n ih =>
    refine .mk ?_ fun isCall => ?_
    · cases h.built with
      | leaf pos head => exact .leaf pos head
      | seq pos head pieces =>
        have thins := Thins.unescape_of_mem ⟨_, pieces, rfl⟩ fun c hc c' => ih c hc
        rw [mapOwners, mapOwners, mapOwnersAll_eq_map, mapOwnersAll_eq_map]
        exact (thins.thinned_seq pos head).built
      | rawInclusion pos file filters => exact .rawInclusion pos file filters
      | fileReference pos path fullPath ast => exact .fileReference pos path fullPath ast
      | owner pos head child =>
        exact .owner pos (head.unescape names) (rel_mapOwners child fun c hc c' => ih c
          (Option.mem_toList.2 hc))
      | fork pos head first second =>
        simp only [children, List.mem_append, Option.mem_toList] at ih
        exact .fork pos head (rel_mapOwners first fun c hc c' => ih c (.inl hc))
          (rel_mapOwners second fun c hc c' => ih c (.inr hc))
      | inclusion pos block tree =>
        exact .inclusion pos block (rebuiltFile_mapOwners tree fun c hc c' => ih c (Option.mem_toList.2 hc))
      | extension pos tree =>
        exact .extension pos (rebuiltFile_mapOwners tree fun c hc c' => ih c (Option.mem_toList.2 hc))
    · rw [isCall_eq_of_label?_eq (label?_unescape n)] at isCall
      rw [hasBare_unescape, hasBare_unescape, h.content isCall]

theorem Thins.unescape {ns ns' : List Node} (h : Thins (Idle strict) ns ns') :
    Thins (Idle strict) (ns.map (mapOwners (Owner.unescape names)))
      (ns'.map (mapOwners (Owner.unescape names))) :=
  h.unescape_of_mem fun _ _ _ thinned => thinned.unescape

end Unescaping

end Node

end PugComponents

import PugComponents.Proofs.Cleanup.Removal
import PugComponents.Proofs.Value
import PugComponents.Slots.Provided

/-! Trees from whose blocks some nodes were taken out. A pass that puts a list of nodes in the place of
each node of a block leaves such a pair of trees behind if it is given one, whatever it does at single
nodes; and trees that differ in definitions only are the same once the definitions are removed. -/

namespace PugComponents.Node

/-- What counts as content for the default slot if it stands below a call. -/
def isBare (n : Node) : Bool := !n.isSlot && !n.isComment

def hasBare (n : Node) : Bool := n.children.any fun b => (b.nodes?.getD []).any isBare

theorem isBare_bare (n : Node) : n.bare.isBare = n.isBare := by
  have isComment : n.bare.isComment = n.isComment := by
    cases n with
    | owner pos head block => cases head <;> rfl
    | _ => rfl
  rw [isBare, isBare, isSlot_eq_of_tag?_eq (tag?_bare n), isComment]

mutual

inductive Remnant (D : Node → Prop) : Node → List Node → Prop where
  | dropped {n : Node} (idle : D n) : Remnant D n []
  | kept {n n' : Node} (thinned : Thinned D n n') : Remnant D n [n']

/-- A tree from whose blocks nodes with a property were taken out. A call still has content for the
default slot if it had some. -/
inductive Thinned (D : Node → Prop) : Node → Node → Prop where
  | mk {n n' : Node} (built : Rebuilt (Remnant D) (Thinned D) n n')
    (content : n.isCall = true → n'.hasBare = n.hasBare) : Thinned D n n'

end

def Thins (D : Node → Prop) (ns ns' : List Node) : Prop :=
  ∃ parts, List.Forall₂ (Remnant D) ns parts ∧ ns' = parts.flatten

/-- What a pass makes of a node if it gives `g` of each node of a block and `f` of any other child. -/
def rebuild (f : Node → Option Node) (g : Node → Option (List Node)) : Node → Option Node
  | .leaf pos head => some (.leaf pos head)
  | .seq pos head nodes => (gather g nodes).map (.seq pos head)
  | .owner pos head block => (block.mapM f).map (.owner pos head)
  | .fork pos head main alternate =>
    (main.mapM f).bind fun main => (alternate.mapM f).map (.fork pos head main)
  | .inclusion pos file block => (rebuildFile f file).map (.inclusion pos · block)
  | .extension pos file => (rebuildFile f file).map (.extension pos)
  | .rawInclusion pos file filters => some (.rawInclusion pos file filters)
  | .fileReference pos path fullPath ast => some (.fileReference pos path fullPath ast)
where
  /-- The tree that a file refers to is a child like any other. -/
  rebuildFile (f : Node → Option Node) : Option Node → Option (Option Node)
    | none => some none
    | some (.fileReference pos path fullPath ast) =>
      (ast.mapM f).map fun ast => some (.fileReference pos path fullPath ast)
    | some _ => none

variable {D : Node → Prop} {strict : Prop}

namespace Thins

theorem nil : Thins D [] [] := ⟨[], .nil, rfl⟩

theorem append {ns ns' ms ms' : List Node} (h : Thins D ns ns') (h' : Thins D ms ms') :
    Thins D (ns ++ ms) (ns' ++ ms') := by
  obtain ⟨parts, related, rfl⟩ := h
  obtain ⟨parts', related', rfl⟩ := h'
  exact ⟨parts ++ parts', List.rel_append related related', by simp⟩

theorem single {n : Node} {part : List Node} (h : Remnant D n part) : Thins D [n] part :=
  ⟨[part], .cons h .nil, by simp⟩

theorem of_rel {o o' : Option Node} (h : Option.Rel (Thinned D) o o') : Thins D o.toList o'.toList := by
  cases h with
  | none => exact nil
  | some thinned => exact single (.kept thinned)

theorem of_rebuiltFile {file file' : Option Node} (h : RebuiltFile (Thinned D) file file') :
    Thins D (ast? file).toList (ast? file').toList := by
  cases h with
  | none => exact nil
  | some pos path fullPath child => exact of_rel child

end Thins

section Passes

variable {f f' : Node → Option Node} {g g' : Node → Option (List Node)}

theorem follows_gather {ns ns' : List Node} (h : Thins D ns ns')
    (each : ∀ n ∈ ns, ∀ part, Remnant D n part → Follows strict (Thins D) (g n) (gather g' part)) :
    Follows strict (Thins D) (gather g ns) (gather g' ns') := by
  obtain ⟨parts, related, rfl⟩ := h
  induction related with
  | nil => exact .some .nil
  | @cons n part ns parts first _ ih =>
    rw [List.forall_mem_cons] at each
    rw [List.flatten_cons, gather_append, gather]
    exact (each.1 part first).bind fun _ _ front => (ih each.2).map fun _ _ back => front.append back

theorem follows_mapM {o o' : Option Node} (h : Option.Rel (Thinned D) o o')
    (each : ∀ c ∈ o, ∀ c', Thinned D c c' → Follows strict (Thinned D) (f c) (f' c')) :
    Follows strict (Option.Rel (Thinned D)) (o.mapM f) (o'.mapM f') := by
  cases h with
  | none => exact .some .none
  | @some c c' thinned =>
    rw [Option.mapM_some, Option.mapM_some]
    exact (each c rfl c' thinned).map fun _ _ related => .some related

theorem follows_rebuildFile {file file' : Option Node} (h : RebuiltFile (Thinned D) file file')
    (each : ∀ c ∈ ast? file, ∀ c', Thinned D c c' → Follows strict (Thinned D) (f c) (f' c')) :
    Follows strict (RebuiltFile (Thinned D)) (rebuild.rebuildFile f file)
      (rebuild.rebuildFile f' file') := by
  cases h with
  | none => exact .some .none
  | some pos path fullPath child =>
    exact (follows_mapM child each).map fun _ _ related => .some pos path fullPath related

theorem bareFile_of_rebuildFile {file file' : Option Node}
    (h : rebuild.rebuildFile f file = some file') : bareFile file' = bareFile file := by
  cases file with
  | none =>
    cases h
    rfl
  | some n =>
    cases n with
    | fileReference pos path fullPath ast =>
      obtain ⟨ast', -, rfl⟩ := Option.map_eq_some_iff.1 h
      rfl
    | _ => cases h

theorem bare_of_rebuild {n m : Node} (h : rebuild f g n = some m) : m.bare = n.bare := by
  cases n with
  | leaf | rawInclusion | fileReference =>
    cases h
    rfl
  | seq | owner =>
    obtain ⟨_, -, rfl⟩ := Option.map_eq_some_iff.1 h
    rfl
  | fork =>
    obtain ⟨_, -, h⟩ := Option.bind_eq_some_iff.1 h
    obtain ⟨_, -, rfl⟩ := Option.map_eq_some_iff.1 h
    rfl
  | inclusion | extension =>
    obtain ⟨_, tree, rfl⟩ := Option.map_eq_some_iff.1 h
    rw [bare, bareFile_of_rebuildFile tree, bare]

theorem mapM_of_rel {R : Node → Node → Prop} {o o' : Option Node} (h : Option.Rel R o o')
    (single : ∀ c c', R c c' → f c = some c') : o.mapM f = some o' := by
  cases h with
  | none => rfl
  | some related => simp [single _ _ related]

theorem rebuildFile_of_rebuiltFile {R : Node → Node → Prop} {file file' : Option Node}
    (h : RebuiltFile R file file') (single : ∀ c c', R c c' → f c = some c') :
    rebuild.rebuildFile f file = some file' := by
  cases h with
  | none => rfl
  | some pos path fullPath child => rw [rebuild.rebuildFile, mapM_of_rel child single, Option.map_some]

theorem rebuild_of_rebuilt {P : Node → List Node → Prop} {R : Node → Node → Prop} {n n' : Node}
    (built : Rebuilt P R n n') (listed : ∀ c part, P c part → g c = some part)
    (single : ∀ c c', R c c' → f c = some c') : rebuild f g n = some n' := by
  cases built with
  | leaf | rawInclusion | fileReference => rfl
  | @seq pos head nodes parts pieces =>
    have gathered : gather g nodes = some parts.flatten := by
      induction pieces with
      | nil => rfl
      | cons first _ ih => rw [gather, listed _ _ first, ih, List.flatten_cons]; rfl
    rw [rebuild, gathered, Option.map_some]
  | owner pos head child => rw [rebuild, mapM_of_rel child single, Option.map_some]
  | fork pos head first second =>
    rw [rebuild, mapM_of_rel first single, mapM_of_rel second single]
    rfl
  | inclusion pos block tree | extension pos tree =>
    rw [rebuild, rebuildFile_of_rebuiltFile tree single, Option.map_some]

theorem mapM_mapM (o : Option Node) :
    (o.mapM f).bind (Option.mapM f') = o.mapM fun c => (f c).bind f' := by
  cases o with
  | none => rfl
  | some c => cases found : f c <;> simp [found]

theorem rebuildFile_rebuildFile (file : Option Node) :
    (rebuild.rebuildFile f file).bind (rebuild.rebuildFile f') =
      rebuild.rebuildFile (fun c => (f c).bind f') file := by
  cases file with
  | none => rfl
  | some n =>
    cases n with
    | fileReference pos path fullPath ast =>
      simp only [rebuild.rebuildFile, Option.bind_map, ← mapM_mapM, Option.map_bind]
      rfl
    | _ => rfl

theorem rebuild_rebuild (n : Node) :
    (rebuild f g n).bind (rebuild f' g') =
      rebuild (fun c => (f c).bind f') (fun c => (g c).bind (gather g')) n := by
  cases n with
  | leaf | rawInclusion | fileReference => rfl
  | seq pos head nodes =>
    simp only [rebuild, Option.bind_map, ← gather_gather, Option.map_bind]
    rfl
  | owner pos head block =>
    simp only [rebuild, Option.bind_map, ← mapM_mapM, Option.map_bind]
    rfl
  | fork pos head main alternate =>
    simp only [rebuild, ← mapM_mapM]
    cases main.mapM f with
    | none => rfl
    | some main =>
      cases alternate.mapM f with
      | none => cases first : main.mapM f' <;> simp [first]
      | some alternate => rfl
  | inclusion pos file block | extension pos file =>
    simp only [rebuild, Option.bind_map, ← rebuildFile_rebuildFile, Option.map_bind]
    rfl

theorem mapM_congr {o : Option Node} (single : ∀ c ∈ o, f c = f' c) : o.mapM f = o.mapM f' := by
  cases o with
  | none => rfl
  | some c => simp [single c rfl]

theorem rebuildFile_congr {file : Option Node} (single : ∀ c ∈ ast? file, f c = f' c) :
    rebuild.rebuildFile f file = rebuild.rebuildFile f' file := by
  cases file with
  | none => rfl
  | some n =>
    cases n with
    | fileReference pos path fullPath ast =>
      have same : ast.mapM f = ast.mapM f' := mapM_congr single
      rw [rebuild.rebuildFile, rebuild.rebuildFile, same]
    | _ => rfl

theorem rebuild_congr {n : Node} (listed : n.isBlock = true → ∀ c ∈ n.children, g c = g' c)
    (single : n.isBlock = false → ∀ c ∈ n.children, f c = f' c) : rebuild f g n = rebuild f' g' n := by
  cases n with
  | leaf | rawInclusion | fileReference => rfl
  | seq pos head nodes =>
    have same : gather g nodes = gather g' nodes := gather_congr (listed rfl)
    rw [rebuild, rebuild, same]
  | owner pos head block =>
    rw [rebuild, rebuild, mapM_congr fun c hc => single rfl c (Option.mem_toList.2 hc)]
  | fork pos head main alternate =>
    simp only [children, List.mem_append, Option.mem_toList] at single
    rw [rebuild, rebuild, mapM_congr fun c hc => single rfl c (.inl hc),
      mapM_congr fun c hc => single rfl c (.inr hc)]
  | inclusion pos file block | extension pos file =>
    rw [rebuild, rebuild, rebuildFile_congr fun c hc => single rfl c (Option.mem_toList.2 hc)]

/-- A pass leads from a tree and a thinned one to such a pair, if it does so at every child. -/
theorem follows_rebuild {n n' : Node} (built : Rebuilt (Remnant D) (Thinned D) n n')
    (single : ∀ c ∈ n.children, ∀ c', Thinned D c c' → Follows strict (Thinned D) (f c) (f' c'))
    (listed : ∀ c ∈ n.children, ∀ part, Remnant D c part →
      Follows strict (Thins D) (g c) (gather g' part)) :
    Follows strict (Rebuilt (Remnant D) (Thinned D)) (rebuild f g n) (rebuild f' g' n') := by
  cases built with
  | leaf pos head => exact .some (.leaf pos head)
  | seq pos head pieces =>
    refine (follows_gather ⟨_, pieces, rfl⟩ listed).map ?_
    rintro _ _ ⟨parts, related, rfl⟩
    exact .seq pos head related
  | owner pos head child =>
    refine (follows_mapM child fun c hc => single c (Option.mem_toList.2 hc)).map fun _ _ related => ?_
    exact .owner pos head related
  | fork pos head first second =>
    simp only [children, List.mem_append, Option.mem_toList] at single
    refine (follows_mapM first fun c hc => single c (.inl hc)).bind fun _ _ main => ?_
    exact (follows_mapM second fun c hc => single c (.inr hc)).map fun _ _ => .fork pos head main
  | inclusion pos block tree =>
    refine (follows_rebuildFile tree fun c hc => single c (Option.mem_toList.2 hc)).map
      fun _ _ related => ?_
    exact .inclusion pos block related
  | extension pos tree =>
    refine (follows_rebuildFile tree fun c hc => single c (Option.mem_toList.2 hc)).map
      fun _ _ related => ?_
    exact .extension pos related
  | rawInclusion pos file filters => exact .some (.rawInclusion pos file filters)
  | fileReference pos path fullPath ast => exact .some (.fileReference pos path fullPath ast)

end Passes

namespace Thinned

variable {n n' : Node}

theorem built (h : Thinned D n n') : Rebuilt (Remnant D) (Thinned D) n n' := by
  cases h with
  | mk built _ => exact built

theorem content (h : Thinned D n n') (isCall : n.isCall = true) : n'.hasBare = n.hasBare := by
  cases h with
  | mk _ content => exact content isCall

theorem bare_eq (h : Thinned D n n') : n'.bare = n.bare := h.built.bare_eq

theorem tag?_eq (h : Thinned D n n') : n'.tag? = n.tag? := h.built.tag?_eq

theorem isBare_eq (h : Thinned D n n') : n'.isBare = n.isBare := by
  rw [← isBare_bare, h.bare_eq, isBare_bare]

theorem thins_children (h : Thinned D n n') : Thins D n.children n'.children := by
  cases h.built with
  | leaf | rawInclusion | fileReference => exact .nil
  | seq pos head pieces => exact ⟨_, pieces, rfl⟩
  | owner pos head child => exact .of_rel child
  | fork pos head first second => exact (Thins.of_rel first).append (.of_rel second)
  | inclusion pos block tree => exact .of_rebuiltFile tree
  | extension pos tree => exact .of_rebuiltFile tree

theorem imp {D' : Node → Prop} (weaker : ∀ m, D m → D' m) (h : Thinned D n n') : Thinned D' n n' := by
  induction n using childInduction generalizing n' with
  | step n ih =>
    refine .mk (h.built.imp (fun c hc part remnant => ?_) fun c hc c' => ih c hc) h.content
    cases remnant with
    | dropped idle => exact .dropped (weaker c idle)
    | kept thinned => exact .kept (ih c hc thinned)

theorem isWellFormed (h : Thinned D n n') (wf : n.isWellFormed = true) : n'.isWellFormed = true := by
  induction n using childInduction generalizing n' with
  | step n ih =>
    refine h.built.isWellFormed wf (fun _ c _ c' related => related.bare_eq) fun m hm => ?_
    obtain ⟨c, hc, part, piece, hm⟩ := h.built.exists_piece_of_mem hm
    have below : ∀ c', Thinned D c c' → c'.isWellFormed = true :=
      fun c' related => ih c hc related (isWellFormed_of_mem_children wf hc)
    cases piece with
    | single _ related => exact List.mem_singleton.1 hm ▸ below _ related
    | listed _ remnant =>
      cases remnant with
      | dropped => cases hm
      | kept thinned => exact List.mem_singleton.1 hm ▸ below _ thinned

theorem refl (filed : n.Lacks isMisfiled) : Thinned D n n := by
  induction n using childInduction with
  | step n ih =>
    have below : ∀ c ∈ n.children, Thinned D c c := fun c hc => ih c hc (filed.of_mem_children hc)
    have built : Rebuilt (Remnant D) (Thinned D) n n :=
      .refl (lacks_iff.1 filed).1 (fun c hc => .kept (below c hc)) below
    exact .mk built fun _ => rfl

end Thinned

theorem Thins.refl {ns : List Node} (filed : ∀ n ∈ ns, n.Lacks isMisfiled) : Thins D ns ns := by
  induction ns with
  | nil => exact .nil
  | cons n ns ih =>
    rw [List.forall_mem_cons] at filed
    exact (Thins.single (.kept (.refl filed.1))).append (ih filed.2)

theorem Thins.imp {D' : Node → Prop} (weaker : ∀ m, D m → D' m) {ns ns' : List Node}
    (h : Thins D ns ns') : Thins D' ns ns' := by
  obtain ⟨parts, related, eq⟩ := h
  refine ⟨parts, related.imp fun n part remnant => ?_, eq⟩
  cases remnant with
  | dropped idle => exact .dropped (weaker n idle)
  | kept thinned => exact .kept (thinned.imp weaker)

theorem Thins.thinned_seq {ns ns' : List Node} (h : Thins D ns ns') (pos : Position) (head : Sequence) :
    Thinned D (.seq pos head ns) (.seq pos head ns') := by
  obtain ⟨parts, related, rfl⟩ := h
  refine .mk (.seq pos head related) fun isCall => ?_
  cases isCall

theorem Thins.filter {ns ns' : List Node} (h : Thins D ns ns') {p : Node → Bool}
    (alike : ∀ n n', Thinned D n n' → p n' = p n) : Thins D (ns.filter p) (ns'.filter p) := by
  obtain ⟨parts, related, rfl⟩ := h
  induction related with
  | nil => exact .nil
  | @cons n part ns parts first _ ih =>
    rw [← List.singleton_append, List.flatten_cons, List.filter_append, List.filter_append]
    refine Thins.append ?_ ih
    cases first with
    | dropped idle =>
      cases passes : p n with
      | true => simpa [passes] using Thins.single (.dropped idle)
      | false => simpa [passes] using Thins.nil
    | @kept _ n' thinned =>
      have same := alike n n' thinned
      cases passes : p n with
      | true => simpa [same, passes] using Thins.single (.kept thinned)
      | false => simpa [same, passes] using Thins.nil

theorem Thins.forall₂ {ns ns' : List Node} (h : Thins D ns ns') (busy : ∀ n ∈ ns, ¬ D n) :
    List.Forall₂ (Thinned D) ns ns' := by
  obtain ⟨parts, related, rfl⟩ := h
  induction related with
  | nil => exact .nil
  | cons first _ ih =>
    rw [List.forall_mem_cons] at busy
    cases first with
    | dropped idle => exact absurd idle busy.1
    | kept thinned => exact .cons thinned (ih busy.2)

section Removal

theorem withoutDefinitionsAll_of_thins (isDefinition : ∀ n, D n → n.isDefinition = true)
    {ns ns' : List Node} (h : Thins D ns ns')
    (each : ∀ n ∈ ns, ∀ n', Thinned D n n' → withoutDefinitions n' = withoutDefinitions n) :
    withoutDefinitionsAll ns' = withoutDefinitionsAll ns := by
  obtain ⟨parts, related, rfl⟩ := h
  induction related with
  | nil => rfl
  | @cons n part ns parts first _ ih =>
    rw [List.forall_mem_cons] at each
    rw [List.flatten_cons, withoutDefinitionsAll, ← ih each.2]
    cases first with
    | dropped idle =>
      rw [withoutDefinitions_of_isDefinition (isDefinition n idle), List.nil_append]
      cases withoutDefinitionsAll parts.flatten <;> rfl
    | @kept _ n' thinned => simp only [List.singleton_append, withoutDefinitionsAll, each.1 n' thinned]

theorem withoutDefinitionsOption_of_rel {needed : Bool} {pos : Position} {o o' : Option Node}
    (h : Option.Rel (Thinned D) o o')
    (each : ∀ c ∈ o, ∀ c', Thinned D c c' → withoutDefinitions c' = withoutDefinitions c) :
    withoutDefinitionsOption needed pos o' = withoutDefinitionsOption needed pos o := by
  cases h with
  | none => rfl
  | @some c c' thinned => rw [withoutDefinitionsOption, withoutDefinitionsOption, each c rfl c' thinned]

theorem withoutDefinitionsFile_of_rebuilt {file file' : Option Node} (h : RebuiltFile (Thinned D) file file')
    (each : ∀ c ∈ ast? file, ∀ c', Thinned D c c' → withoutDefinitions c' = withoutDefinitions c) :
    withoutDefinitionsFile file' = withoutDefinitionsFile file := by
  cases h with
  | none => rfl
  | some pos path fullPath child =>
    rw [withoutDefinitionsFile, withoutDefinitionsFile,
      withoutDefinitionsOption_of_rel child each]

theorem withoutDefinitions_of_thinned (isDefinition : ∀ n, D n → n.isDefinition = true) {n n' : Node}
    (h : Thinned D n n') :
    withoutDefinitions n' = withoutDefinitions n := by
  induction n using childInduction generalizing n' with
  | step n ih =>
    have defined : n'.isDefinition = n.isDefinition := isDefinition_eq_of_tag?_eq h.tag?_eq
    cases h.built with
    | leaf | rawInclusion | fileReference => rfl
    | seq pos head pieces =>
      rw [withoutDefinitions, withoutDefinitions,
        withoutDefinitionsAll_of_thins isDefinition ⟨_, pieces, rfl⟩ fun c hc c' => ih c hc]
    | owner pos head child =>
      rw [withoutDefinitions, withoutDefinitions, defined,
        withoutDefinitionsOption_of_rel child fun c hc c' => ih c (Option.mem_toList.2 hc)]
    | fork pos head first second =>
      simp only [children, List.mem_append, Option.mem_toList] at ih
      rw [withoutDefinitions, withoutDefinitions,
        withoutDefinitionsOption_of_rel first fun c hc c' => ih c (.inl hc),
        withoutDefinitionsOption_of_rel second fun c hc c' => ih c (.inr hc)]
    | inclusion pos block tree =>
      rw [withoutDefinitions, withoutDefinitions,
        withoutDefinitionsFile_of_rebuilt tree fun c hc c' => ih c (Option.mem_toList.2 hc)]
    | extension pos tree =>
      rw [withoutDefinitions, withoutDefinitions,
        withoutDefinitionsFile_of_rebuilt tree fun c hc c' => ih c (Option.mem_toList.2 hc)]

end Removal

end PugComponents.Node

import PugComponents.Proofs.Definition.Thinned
import PugComponents.Proofs.Expansion.Siblings

/-! A definition that is taken out of the body of another one. The place where it stood is described by
the frames around it; apart from the definitions around it, which lose it, the tree declares what it
declared before. -/

namespace PugComponents

open Node Outcome

namespace Node

theorem definitions_eq (n : Node) :
    n.definitions = (if n.isDefinition then [n] else []) ++ n.children.flatMap definitions := by
  have below : (n.children.flatMap walk).filter isDefinition = n.children.flatMap definitions :=
    List.filter_flatMap
  rw [definitions, walk_eq, List.filter_cons, below]
  cases n.isDefinition <;> rfl

theorem definitions_seq (pos : Position) (head : Sequence) (nodes : List Node) :
    (seq pos head nodes).definitions = nodes.flatMap definitions :=
  definitions_eq _

theorem isDefinition_owner (pos : Position) (head : Owner) (block block' : Option Node) :
    (owner pos head block').isDefinition = (owner pos head block).isDefinition :=
  isDefinition_eq_of_tag?_eq (tag?_eq_of_bare_eq rfl)

theorem definitions_owner {pos : Position} {head : Owner} {block : Node}
    (isDefinition : (owner pos head (some block)).isDefinition = true) :
    (owner pos head (some block)).definitions = owner pos head (some block) :: block.definitions := by
  rw [definitions_eq, if_pos isDefinition]
  simp [children]

/-- A node with a hole in the place of one child. -/
inductive Frame where
  | seq (pos : Position) (head : Sequence) (before after : List Node)
  | owner (pos : Position) (head : Owner)
  | firstBranch (pos : Position) (head : Fork) (alternate : Option Node)
  | secondBranch (pos : Position) (head : Fork) (main : Option Node)
  | inclusion (pos filePos : Position) (path fullPath : Json) (block : Option Node)
  | extension (pos filePos : Position) (path fullPath : Json)

namespace Frame

def plug : Frame → Node → Node
  | .seq pos head before after, n => .seq pos head (before ++ n :: after)
  | .owner pos head, n => .owner pos head (some n)
  | .firstBranch pos head alternate, n => .fork pos head (some n) alternate
  | .secondBranch pos head main, n => .fork pos head main (some n)
  | .inclusion pos filePos path fullPath block, n =>
    .inclusion pos (some (.fileReference filePos path fullPath (some n))) block
  | .extension pos filePos path fullPath, n =>
    .extension pos (some (.fileReference filePos path fullPath (some n)))

def before : Frame → List Node
  | .seq _ _ before _ => before
  | .secondBranch _ _ main => main.toList
  | _ => []

def after : Frame → List Node
  | .seq _ _ _ after => after
  | .firstBranch _ _ alternate => alternate.toList
  | _ => []

variable {f : Frame} {n n' : Node}

theorem children_plug (f : Frame) (n : Node) : (f.plug n).children = f.before ++ n :: f.after := by
  cases f <;> simp [plug, children, before, after, ast?]

theorem mem_children_plug (f : Frame) {n : Node} : n ∈ (f.plug n).children := by
  rw [children_plug]
  exact List.mem_append_right _ (List.mem_cons_self ..)

theorem bare_plug (f : Frame) (n n' : Node) : (f.plug n').bare = (f.plug n).bare := by
  cases f <;> rfl

theorem definitions_plug (f : Frame) (n : Node) :
    (f.plug n).definitions = (if (f.plug n).isDefinition then [f.plug n] else []) ++
      (f.before.flatMap definitions ++ (n.definitions ++ f.after.flatMap definitions)) := by
  rw [definitions_eq, children_plug, List.flatMap_append, List.flatMap_cons]

theorem thinned_plug {D : Node → Prop} (filed : ∀ c ∈ f.before ++ f.after, c.Lacks isMisfiled)
    (thinned : Thinned D n n')
    (content : (n'.nodes?.getD []).any isBare = (n.nodes?.getD []).any isBare) :
    Thinned D (f.plug n) (f.plug n') := by
  have around := List.forall_mem_append.1 filed
  have hasBare : (f.plug n').hasBare = (f.plug n).hasBare := by
    simp only [hasBare, children_plug, List.any_append, List.any_cons, content]
  refine .mk ?_ fun _ => hasBare
  cases f with
  | seq pos head before after =>
    have thins : Thins D (before ++ n :: after) (before ++ n' :: after) :=
      (Thins.refl around.1).append ((Thins.single (.kept thinned)).append (.refl around.2))
    exact (thins.thinned_seq pos head).built
  | owner pos head => exact .owner pos head (.some thinned)
  | firstBranch pos head alternate =>
    exact .fork pos head (.some thinned) (rel_self fun c hc => .refl (around.2 c (Option.mem_toList.2 hc)))
  | secondBranch pos head main =>
    exact .fork pos head (rel_self fun c hc => .refl (around.1 c (Option.mem_toList.2 hc))) (.some thinned)
  | inclusion pos filePos path fullPath block =>
    exact .inclusion pos block (.some filePos path fullPath (.some thinned))
  | extension pos filePos path fullPath =>
    exact .extension pos (.some filePos path fullPath (.some thinned))

end Frame

/-- A tree with `b` taken out of the body of a definition in it. Each definition around `b` is related to
what is left of it. -/
inductive TakenOut (unseen : Node → Node → Prop) (b : Node) : Node → Node → Prop where
  | body {pos blockPos : Position} {head : Owner} {blockHead : Sequence} {before after : List Node}
    (isDefinition : (owner pos head (some (.seq blockPos blockHead
      (before ++ b :: after)))).isDefinition = true)
    (hidden : unseen (owner pos head (some (.seq blockPos blockHead (before ++ b :: after))))
      (owner pos head (some (.seq blockPos blockHead (before ++ after))))) :
    TakenOut unseen b (owner pos head (some (.seq blockPos blockHead (before ++ b :: after))))
      (owner pos head (some (.seq blockPos blockHead (before ++ after))))
  | within {n n' : Node} (f : Frame) (inner : TakenOut unseen b n n')
    (hidden : (f.plug n).isDefinition = true → unseen (f.plug n) (f.plug n')) :
    TakenOut unseen b (f.plug n) (f.plug n')

namespace TakenOut

variable {unseen : Node → Node → Prop} {b n n' : Node}

theorem bare_eq (h : TakenOut unseen b n n') : n'.bare = n.bare := by
  cases h with
  | body => rfl
  | within f _ _ => exact f.bare_plug _ _

theorem mem_walk (h : TakenOut unseen b n n') : b ∈ n.walk := by
  induction h with
  | body isDefinition _ =>
    refine mem_walk_of_mem_children (List.mem_singleton_self _)
      (mem_walk_of_mem_children ?_ (self_mem_walk b))
    exact List.mem_append_right _ (List.mem_cons_self ..)
  | within f inner _ ih => exact mem_walk_of_mem_children f.mem_children_plug ih

theorem any_isBare_eq (h : TakenOut unseen b n n') :
    (n'.nodes?.getD []).any isBare = (n.nodes?.getD []).any isBare := by
  cases h with
  | body => rfl
  | within f inner _ =>
    cases f with
    | seq pos head before after =>
      have same : ∀ m : Node, m.bare.isBare = m.isBare := isBare_bare
      simp only [Frame.plug, nodes?, Option.getD_some, List.any_append, List.any_cons]
      rw [← same, inner.bare_eq, same]
    | _ => rfl

theorem thinned (h : TakenOut unseen b n n') (filed : n.Lacks isMisfiled) : Thinned (· = b) n n' := by
  induction h with
  | @body pos blockPos head blockHead before after isDefinition hidden =>
    have around : ∀ c ∈ before ++ b :: after, c.Lacks isMisfiled := by
      have block := filed.of_mem_children (List.mem_singleton_self _)
      exact fun c hc => block.of_mem_children hc
    rw [List.forall_mem_append, List.forall_mem_cons] at around
    have dropped : Thins (· = b) [b] [] := .single (.dropped rfl)
    have thins : Thins (· = b) (before ++ b :: after) (before ++ after) :=
      (Thins.refl around.1).append (dropped.append (.refl around.2.2))
    refine .mk (.owner pos head (.some (thins.thinned_seq blockPos blockHead))) fun isCall => ?_
    rw [isCall_eq_false_of_isTagNamed isDefinition (by decide +kernel)] at isCall
    cases isCall
  | @within n n' f inner hidden ih =>
    have below : ∀ c ∈ f.before ++ n :: f.after, c.Lacks isMisfiled := by
      intro c hc
      exact filed.of_mem_children (f.children_plug n ▸ hc)
    rw [List.forall_mem_append, List.forall_mem_cons] at below
    exact f.thinned_plug (List.forall_mem_append.2 ⟨below.1, below.2.2⟩) (ih below.2.1) inner.any_isBare_eq

theorem imp {unseen' : Node → Node → Prop} (h : TakenOut unseen b n n') (wf : n.isWellFormed = true)
    (each : ∀ tag tag', tag.isWellFormed = true → tag.isDefinition = true → TakenOut unseen b tag tag' →
      unseen tag tag' → unseen' tag tag') : TakenOut unseen' b n n' := by
  induction h with
  | body isDefinition hidden =>
    exact .body isDefinition (each _ _ wf isDefinition (.body isDefinition hidden) hidden)
  | within f inner hidden ih =>
    refine .within f (ih (isWellFormed_of_mem_children wf f.mem_children_plug)) fun isDefinition => ?_
    exact each _ _ wf isDefinition (.within f inner hidden) (hidden isDefinition)

/-- A definition that stays as it is, or one that lost `b` and does not show it. -/
def Left (unseen : Node → Node → Prop) (b tag tag' : Node) : Prop :=
  tag' = tag ∨ TakenOut unseen b tag tag' ∧ unseen tag tag'

/-- Apart from those at and below `b`, the definitions correspond one to one. -/
theorem definitions_split (h : TakenOut unseen b n n') :
    ∃ before after, n.definitions = before ++ (b.definitions ++ after) ∧
      List.Forall₂ (Left unseen b) (before ++ after) n'.definitions := by
  have same : ∀ tags : List Node, List.Forall₂ (Left unseen b) tags tags :=
    fun tags => List.forall₂_same.2 fun tag _ => .inl rfl
  -- Each frame adds the definitions beside the hole, and itself if it is one.
  induction h with
  | @body pos blockPos head blockHead before after isDefinition hidden =>
    have isDefinition' : (owner pos head (some (.seq blockPos blockHead (before ++ after)))).isDefinition =
        true := (isDefinition_owner _ _ _ _).trans isDefinition
    refine ⟨owner pos head (some (.seq blockPos blockHead (before ++ b :: after))) ::
      before.flatMap definitions, after.flatMap definitions, ?_, ?_⟩
    · simp [definitions_owner isDefinition, definitions_seq]
    · rw [definitions_owner isDefinition', definitions_seq, List.flatMap_append]
      exact .cons (.inr ⟨.body isDefinition hidden, hidden⟩) (same _)
  | @within n n' f inner hidden ih =>
    obtain ⟨before, after, eq, left⟩ := ih
    refine ⟨(if (f.plug n).isDefinition then [f.plug n] else []) ++ (f.before.flatMap definitions ++ before),
      after ++ f.after.flatMap definitions, by simp [f.definitions_plug, eq], ?_⟩
    have isDefinition : (f.plug n').isDefinition = (f.plug n).isDefinition :=
      isDefinition_eq_of_tag?_eq (tag?_eq_of_bare_eq (f.bare_plug n n'))
    rw [f.definitions_plug n', isDefinition, List.append_assoc, List.append_assoc, ← List.append_assoc before]
    refine List.rel_append ?_ (List.rel_append (same _) (List.rel_append left (same _)))
    cases defined : (f.plug n).isDefinition with
    | true => exact .cons (.inr ⟨.within f inner hidden, hidden defined⟩) .nil
    | false => exact .nil

/-- Whatever a body declares, the same is forwarded to an element at the top of what is left of it. -/
def SameForwarding (tag tag' : Node) : Prop :=
  ∀ usage, tag'.declaredBody.children.any isRootElement = true →
    forwarded? usage tag'.declaredBody.children = forwarded? usage tag.declaredBody.children

theorem of_silent {config : Config} (wf : n.isWellFormed = true) (isDefinition : b.isDefinition = true)
    (keys : b.survey codeDestructurings = .ok []) (names : b.survey sightings = .ok [])
    (h : TakenOut SameForwarding b n n') : TakenOut (Definition.Unseen {} config) b n n' := by
  refine h.imp wf fun tag tag' wf defines taken forwards => ?_
  refine Definition.unseen_of_silent wf defines ?_ ?_ (taken.thinned (lacks_isMisfiled wf))
    fun usage _ => forwards usage
  · rintro _ rfl
    exact isDefinition
  · rintro _ rfl
    exact ⟨keys, names⟩

end TakenOut

end Node

end PugComponents

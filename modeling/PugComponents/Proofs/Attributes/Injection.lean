import PugComponents.Attributes.Fallthrough
import PugComponents.Proofs.Attributes.Given
import PugComponents.Proofs.Outcome
import PugComponents.Proofs.Tree.Calls
import PugComponents.Proofs.Tree.WellFormed

/-! What binding and forwarding attributes does to the nodes of a body: statements come to stand around
them, and the root element may spread one more object. No call and no slot comes or goes. For a
well-formed call and a well-formed body it does not fail. -/

namespace PugComponents

open Node

theorem alike_of_children_eq {n m : Node} (children_eq : m.children = n.children)
    (label : m.label? = n.label?) (pos : m.pos = n.pos)
    (wf : n.isWellFormed = true → m.isWellFormed = true) : Alike n m := by
  refine alike_of_label?_eq wf label pos ?_
  rw [children_eq]
  exact List.forall₂_same.2 fun c _ => .refl c

theorem alike_withSpreads (n : Node) {spreads : List Spread}
    (typed : n.isWellFormed = true → spreads.all Spread.isTyped = true) :
    Alike n (n.withSpreads spreads) := by
  cases n with
  | owner pos head block =>
    cases head with
    | tag element =>
      refine alike_of_children_eq rfl rfl rfl fun wf => ?_
      have typed := typed wf
      rw [withSpreads]
      refine isWellFormed_owner_of_head ?_ ?_ wf
      · simp only [Owner.isTyped, Element.isTyped, Bool.and_eq_true]
        tauto
      · rfl
    | interpolatedTag element =>
      refine alike_of_children_eq rfl rfl rfl fun wf => ?_
      have typed := typed wf
      rw [withSpreads]
      refine isWellFormed_owner_of_head ?_ ?_ wf
      · simp only [Owner.isTyped, Element.isTyped, Bool.and_eq_true]
        tauto
      · rfl
    | mixin head =>
      refine alike_of_children_eq rfl rfl rfl fun wf => ?_
      have typed := typed wf
      rw [withSpreads]
      refine isWellFormed_owner_of_head ?_ ?_ wf
      · simp only [Owner.isTyped, MixinHead.isTyped, Bool.and_eq_true]
        tauto
      · rfl
    | _ => exact .refl _
  | _ => exact .refl _

theorem alike_forward (source : String) (n : Node) : Alike n (n.forward source) := by
  unfold forward
  split
  · refine alike_withSpreads n fun wf => ?_
    simp [Spread.isTyped, Json.isText, isTyped_pos wf]
  · exact .refl n

/-- The node itself, or the node with an object forwarded to it. -/
def Forwards (n m : Node) : Prop := m = n ∨ ∃ source, m = n.forward source

theorem Forwards.alike {n m : Node} (h : Forwards n m) : Alike n m := by
  rcases h with rfl | ⟨source, rfl⟩
  · exact .refl m
  · exact alike_forward source n

def forwarded? (usage : Option Usage) (nodes : List Node) : Option String :=
  if nodes.any fun n => n.walk.any isSpreading then none
  else match nodes.filter isRootElement with
    | [root] => forwardedFor? usage root
    | _ => none

def Node.forwardAtRoot (source : Option String) (n : Node) : Node :=
  match source with
  | some source => if n.isRootElement then n.forward source else n
  | none => n

theorem forwards_forwardAtRoot (source : Option String) (n : Node) :
    Forwards n (n.forwardAtRoot source) := by
  cases source with
  | none => exact .inl rfl
  | some source =>
    simp only [forwardAtRoot]
    split
    · exact .inr ⟨source, rfl⟩
    · exact .inl rfl

theorem eq_any_of_anyBelow {root : Node} {p : Node → Bool} {found : Bool}
    (h : root.anyBelow p = .ok found) : found = root.walk.any p := by
  unfold anyBelow at h
  generalize root.walk = nodes at h ⊢
  induction nodes with
  | nil =>
    rw [anyBelow.go, Except.ok.injEq] at h
    exact h.symm
  | cons n ns ih =>
    rw [anyBelow.go] at h
    rw [List.any_cons]
    split at h
    · rename_i passes
      rw [passes, Bool.true_or]
      exact (Except.ok.inj h).symm
    · rename_i fails
      split at h
      · cases h
      · rw [ih h, eq_false_of_ne_true fails, Bool.false_or]

theorem any_walk_block (pos : Position) (nodes : List Node) (p : Node → Bool)
    (fails : ∀ nodes, p (block pos nodes) = false) :
    (block pos nodes).walk.any p = nodes.any fun n => n.walk.any p := by
  rw [walk_eq, List.any_cons, fails, Bool.false_or, List.any_flatMap]
  rfl

theorem applyFallthrough_eq_ok {component : String} {usage : Option Usage} {nodes out : List Node}
    (h : (applyFallthrough component usage nodes).result = .ok out) :
    out = nodes.map (forwardAtRoot (forwarded? usage nodes)) := by
  have unchanged : forwarded? usage nodes = none → nodes = out →
      out = nodes.map (forwardAtRoot (forwarded? usage nodes)) := by
    rintro nothing rfl
    rw [nothing]
    exact (List.map_id nodes).symm
  rw [applyFallthrough, Run.result_bind_eq_ok] at h
  obtain ⟨spreading, asked, h⟩ := h
  have spreads := eq_any_of_anyBelow asked
  rw [any_walk_block _ _ _ fun _ => rfl] at spreads
  split at h
  · rename_i isSpreading
    exact unchanged (by rw [forwarded?, ← spreads, if_pos isSpreading]) (by simpa using h)
  · rename_i notSpreading
    have choice : forwarded? usage nodes =
        match nodes.filter isRootElement with
        | [root] => forwardedFor? usage root
        | _ => none := by rw [forwarded?, ← spreads, if_neg notSpreading]
    split at h
    · rename_i roots
      exact unchanged (by rw [choice, roots]) (by simpa using h)
    · rename_i root roots
      rw [roots] at choice
      split at h
      · rename_i source receives
        rw [show forwarded? usage nodes = some source from choice.trans receives]
        exact (Except.ok.inj h).symm
      · rename_i refuses
        exact unchanged (choice.trans refuses) (by simpa using h)
    · rename_i notNone notOne
      rw [Run.result_bind_eq_ok] at h
      obtain ⟨_, -, h⟩ := h
      refine unchanged ?_ (by simpa using h)
      rw [choice]
      split
      · rename_i root roots
        exact absurd roots (notOne root)
      · rfl

def IsStatement (pos : Position) (n : Node) : Prop := ∃ source, n = statementNode pos source

theorem IsStatement.isWellFormed {pos : Position} {n : Node} (h : IsStatement pos n)
    (typed : pos.isTyped = true) : n.isWellFormed = true := by
  obtain ⟨source, rfl⟩ := h
  exact isWellFormed_owner.2 ⟨typed, rfl, .inr rfl, by simp⟩

theorem IsStatement.lacks_isMisfiled {pos : Position} {n : Node} (h : IsStatement pos n) :
    n.Lacks isMisfiled := by
  obtain ⟨source, rfl⟩ := h
  exact lacks_iff.2 ⟨rfl, by simp [statementNode, children]⟩

theorem IsStatement.stemsFrom {pos : Position} {n page : Node} (h : IsStatement pos n) :
    page.StemsFrom n := by
  obtain ⟨source, rfl⟩ := h
  exact stemsFrom_of_untagged rfl (by simp [statementNode, children])

theorem IsStatement.not_mentions {pos : Position} {n : Node} (h : IsStatement pos n) {name : String} :
    ¬ n.Mentions name := by
  obtain ⟨source, rfl⟩ := h
  rw [mentions_iff]
  simp [statementNode, calledName?, tag?, children]

theorem mem_around {before nodes after : List Node} {n : Node} :
    n ∈ before ++ nodes ++ after ↔ n ∈ before ++ after ∨ n ∈ nodes := by
  simp only [List.mem_append]
  tauto

/-- The statements that bind the attributes, in front of a body and behind it. -/
def Bindings.frame (b : Bindings) (usage : Option Usage) (pos : Position) :
    Except Failure (List Node × List Node) :=
  match usage with
  | none => .ok ([b.legacyStatement pos], [])
  | some usage => do
    let captured ← captured (b.props usage ++ b.attrs usage)
    let first ← (b.props usage).objectStatement "$props" captured pos
    let second ← (b.attrs usage).objectStatement "$attrs" captured pos
    let (opening, closing) := scopeStatements captured pos
    return ([opening, first, second], [closing])

theorem bindAround_eq (b : Bindings) (usage : Option Usage) (pos : Position) (nodes : List Node) :
    b.bindAround usage pos nodes = (do
      let (opening, closing) ← b.frame usage pos
      return opening ++ nodes ++ closing) := by
  cases usage with
  | none => simp [Bindings.bindAround, Bindings.frame, bind, Except.bind, pure, Except.pure]
  | some usage => simp [Bindings.bindAround, Bindings.frame]

theorem frame_eq_ok {b : Bindings} {usage : Option Usage} {pos : Position} {opening closing : List Node}
    (h : b.frame usage pos = .ok (opening, closing)) :
    (∀ m ∈ opening ++ closing, IsStatement pos m) ∧
      (opening.length, closing.length) = if usage.isSome then (3, 1) else (1, 0) := by
  cases usage with
  | none =>
    simp only [Bindings.frame, Except.ok.injEq, Prod.mk.injEq] at h
    obtain ⟨rfl, rfl⟩ := h
    simp [Bindings.legacyStatement, IsStatement]
  | some usage =>
    simp only [Bindings.frame, Bindings.objectStatement, Outcome.bind_eq_ok, Outcome.pure_eq_ok,
      Prod.mk.injEq] at h
    obtain ⟨captured, -, first, ⟨firstLiteral, -, rfl⟩, second, ⟨secondLiteral, -, rfl⟩, rfl, rfl⟩ := h
    have statements : IsStatement pos (Bindings.scopeStatements captured pos).1 ∧
        IsStatement pos (Bindings.scopeStatements captured pos).2 := by
      unfold Bindings.scopeStatements
      split <;> exact ⟨⟨_, rfl⟩, ⟨_, rfl⟩⟩
    have stated : ∀ source, IsStatement pos (statementNode pos source) := fun source => ⟨source, rfl⟩
    simp [statements, stated]

theorem bindAround_eq_ok {b : Bindings} {usage : Option Usage} {pos : Position} {nodes out : List Node}
    (h : b.bindAround usage pos nodes = .ok out) :
    ∃ before after, out = before ++ nodes ++ after ∧ (∀ m ∈ before ++ after, IsStatement pos m) ∧
      (before.length, after.length) = if usage.isSome then (3, 1) else (1, 0) := by
  simp only [bindAround_eq, Outcome.bind_eq_ok, Outcome.pure_eq_ok] at h
  obtain ⟨⟨before, after⟩, framed, rfl⟩ := h
  exact ⟨before, after, rfl, frame_eq_ok framed⟩

theorem injectAttributes_eq_ok {component : String} {usage : Option Usage} {b : Bindings}
    {pos : Position} {nodes out : List Node}
    (h : (injectAttributes component usage b pos nodes).result = .ok out) :
    (∀ m ∈ out, (∃ n, IsStatement pos n ∧ Forwards n m) ∨ ∃ n ∈ nodes, Forwards n m) ∧
      ∀ n ∈ nodes, ∃ m ∈ out, Forwards n m := by
  rw [injectAttributes, Run.result_bind_eq_ok] at h
  obtain ⟨bound, binding, h⟩ := h
  obtain ⟨before, after, rfl, statements, -⟩ := bindAround_eq_ok binding
  obtain rfl := applyFallthrough_eq_ok h
  have forwards := forwards_forwardAtRoot (forwarded? usage (before ++ nodes ++ after))
  constructor
  · intro m hm
    obtain ⟨n, hn, rfl⟩ := List.mem_map.1 hm
    rcases mem_around.1 hn with around | inside
    · exact .inl ⟨n, statements n around, forwards n⟩
    · exact .inr ⟨n, inside, forwards n⟩
  · intro n hn
    exact ⟨_, List.mem_map_of_mem (by simp [hn]), forwards n⟩

section Injected

variable {component : String} {usage : Option Usage} {b : Bindings} {pos : Position}
  {nodes out : List Node}

theorem isWellFormed_of_injectAttributes (typed : pos.isTyped = true)
    (wf : ∀ n ∈ nodes, n.isWellFormed = true)
    (h : (injectAttributes component usage b pos nodes).result = .ok out) :
    ∀ m ∈ out, m.isWellFormed = true := by
  intro m hm
  rcases (injectAttributes_eq_ok h).1 m hm with ⟨n, statement, forwards⟩ | ⟨n, hn, forwards⟩
  · exact forwards.alike.isWellFormed (statement.isWellFormed typed)
  · exact forwards.alike.isWellFormed (wf n hn)

theorem stemsFrom_of_injectAttributes {page : Node} (stems : ∀ n ∈ nodes, page.StemsFrom n)
    (h : (injectAttributes component usage b pos nodes).result = .ok out) :
    ∀ m ∈ out, page.StemsFrom m := by
  intro m hm
  rcases (injectAttributes_eq_ok h).1 m hm with ⟨n, statement, forwards⟩ | ⟨n, hn, forwards⟩
  · exact forwards.alike.stems page statement.stemsFrom
  · exact forwards.alike.stems page (stems n hn)

theorem mentions_of_injectAttributes
    (h : (injectAttributes component usage b pos nodes).result = .ok out) {name : String} {m : Node}
    (hm : m ∈ out) (mentions : m.Mentions name) : ∃ n ∈ nodes, n.Mentions name := by
  rcases (injectAttributes_eq_ok h).1 m hm with ⟨n, statement, forwards⟩ | ⟨n, hn, forwards⟩
  · exact absurd ((forwards.alike.mentions name).1 mentions) statement.not_mentions
  · exact ⟨n, hn, (forwards.alike.mentions name).1 mentions⟩

theorem retains_of_injectAttributes
    (h : (injectAttributes component usage b pos nodes).result = .ok out) {name : String} {n : Node}
    (hn : n ∈ nodes) (retains : n.Retains name) : ∃ m ∈ out, m.Retains name := by
  obtain ⟨m, hm, forwards⟩ := (injectAttributes_eq_ok h).2 n hn
  exact ⟨m, hm, (forwards.alike.retains name).2 retains⟩

end Injected

section Sure

open Outcome

def Bindings.AreTexts (b : Bindings) : Prop := ∀ p ∈ b, p.2.isText = true

def Bindings.ofEntries (entries : List (String × String)) : Bindings :=
  entries.map fun entry => (entry.1, .str entry.2)

theorem Bindings.areTexts_ofEntries (entries : List (String × String)) : (ofEntries entries).AreTexts := by
  intro p hp
  obtain ⟨entry, -, rfl⟩ := List.mem_map.1 hp
  rfl

theorem Bindings.AreTexts.exists_entries {b : Bindings} (texts : b.AreTexts) :
    ∃ entries, b = ofEntries entries := by
  induction b with
  | nil => exact ⟨[], rfl⟩
  | cons p b ih =>
    obtain ⟨text, texts⟩ := List.forall_mem_cons.1 texts
    obtain ⟨entries, rfl⟩ := ih texts
    obtain ⟨name, value⟩ := p
    cases value with
    | str source => exact ⟨(name, source) :: entries, rfl⟩
    | _ => cases text

theorem Bindings.Collects.areTexts {b : Bindings} {given : List (String × String)}
    (h : b.Collects given) : b.AreTexts := by
  intro p hp
  obtain ⟨source, -, text⟩ := h.value p hp
  rw [text]
  rfl

theorem exists_ofAttributes {attrs : List Attribute} (typed : attrs.all Attribute.isTyped = true) :
    ∃ b, Bindings.ofAttributes attrs = .ok b ∧ b.AreTexts := by
  obtain ⟨given, gives⟩ := exists_given typed
  obtain ⟨b, made, collects⟩ := collects_ofAttributes gives
  exact ⟨b, made, collects.areTexts⟩

theorem sure_sourceOf {v : Json} (text : v.isText = true) : Sure (Bindings.sourceOf v) := by
  cases v with
  | str source => exact sure_ok _
  | _ => cases text

theorem sure_objectStatement {b : Bindings} (texts : b.AreTexts) (name : String)
    (captured : List String) (pos : Position) : Sure (b.objectStatement name captured pos) := by
  refine FailsOnly.bind ?_ fun _ => sure_ok _
  refine FailsOnly.bind (failsOnly_mapM_of_mem fun p hp => ?_) fun _ => sure_ok _
  exact (sure_sourceOf (texts p hp)).bind fun _ => sure_ok _

theorem sure_bindAround {b : Bindings} (texts : b.AreTexts) (usage : Option Usage) (pos : Position)
    (nodes : List Node) : Sure (b.bindAround usage pos nodes) := by
  cases usage with
  | none => exact sure_ok _
  | some usage =>
    have props : (b.props usage).AreTexts := fun p hp => texts p (Bindings.mem_props.1 hp).1
    have attrs : (b.attrs usage).AreTexts := fun p hp => texts p (Bindings.mem_attrs.1 hp).1
    have captured : Sure (Bindings.captured (b.props usage ++ b.attrs usage)) := by
      refine FailsOnly.bind (failsOnly_mapM_of_mem fun p hp => ?_) fun _ => sure_ok _
      exact sure_sourceOf ((List.mem_append.1 hp).elim (props p) (attrs p))
    refine captured.bind fun names => ?_
    refine (sure_objectStatement props _ names pos).bind fun _ => ?_
    exact (sure_objectStatement attrs _ names pos).bind fun _ => sure_ok _

theorem sure_anyBelow {root : Node} (filed : root.Lacks isMisfiled) (p : Node → Bool) :
    Sure (root.anyBelow p) := by
  unfold Lacks at filed
  unfold anyBelow
  generalize root.walk = nodes at filed ⊢
  induction nodes with
  | nil => exact sure_ok _
  | cons n ns ih =>
    rw [List.forall_mem_cons] at filed
    rw [anyBelow.go, filed.1]
    split
    · exact sure_ok _
    · exact ih filed.2

theorem sure_applyFallthrough {component : String} {usage : Option Usage} {nodes : List Node}
    (filed : ∀ n ∈ nodes, n.Lacks isMisfiled) :
    Sure (applyFallthrough component usage nodes).result := by
  have whole : (block {} nodes).Lacks isMisfiled := lacks_iff.2 ⟨rfl, filed⟩
  refine Run.failsOnly_bind (sure_anyBelow whole isSpreading) fun spreading _ => ?_
  split
  · exact sure_ok _
  · split
    · exact sure_ok _
    · split <;> exact sure_ok _
    · exact Run.failsOnly_bind (sure_ok _) fun _ _ => sure_ok _

theorem sure_injectAttributes {component : String} {usage : Option Usage} {b : Bindings}
    {pos : Position} {nodes : List Node} (texts : b.AreTexts)
    (wf : ∀ n ∈ nodes, n.isWellFormed = true) :
    Sure (injectAttributes component usage b pos nodes).result := by
  refine Run.failsOnly_bind (sure_bindAround texts usage pos nodes) fun bound binding => ?_
  obtain ⟨before, after, rfl, statements, -⟩ := bindAround_eq_ok binding
  refine sure_applyFallthrough fun n hn => ?_
  rcases mem_around.1 hn with hn | hn
  · exact (statements n hn).lacks_isMisfiled
  · exact lacks_isMisfiled (wf n hn)

end Sure

end PugComponents

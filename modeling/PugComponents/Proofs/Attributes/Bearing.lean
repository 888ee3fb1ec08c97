import PugComponents.Proofs.Definition.Declared
import PugComponents.Proofs.Expansion.Call

/-! The attributes that the tags of a tree bear. Only the reading of a definition changes any: an
attribute whose value is a name derived from `$props` or `$attrs` is written as it is from then on. All
later steps put tags of bodies and of calls together, with the attributes that these had before. -/

namespace PugComponents

open Node

namespace Node

def Bears (n : Node) (a : Attribute) : Prop := ∃ element, n.tag? = some element ∧ a ∈ element.attrs

/-- All attributes of tags at or below the node have the property. -/
def OnlyBears (P : Attribute → Prop) (n : Node) : Prop := ∀ m ∈ n.walk, ∀ a, m.Bears a → P a

variable {P : Attribute → Prop} {n n' : Node} {a : Attribute}

theorem bears_iff_of_tag?_eq (h : n'.tag? = n.tag?) : n'.Bears a ↔ n.Bears a := by
  rw [Bears, h, Bears]

theorem not_bears_of_tag? (untagged : n.tag? = none) : ¬ n.Bears a := by
  rintro ⟨element, found, -⟩
  rw [untagged] at found
  cases found

theorem onlyBears_iff :
    n.OnlyBears P ↔ (∀ a, n.Bears a → P a) ∧ ∀ c ∈ n.children, c.OnlyBears P := by
  constructor
  · intro h
    exact ⟨h n (self_mem_walk n), fun c hc m hm => h m (mem_walk_of_mem_children hc hm)⟩
  · rintro ⟨self, below⟩ m hm
    rcases mem_walk_iff.1 hm with rfl | ⟨c, hc, hm⟩
    · exact self
    · exact below c hc m hm

theorem inherited_onlyBears (P : Attribute → Prop) : Inherited (OnlyBears P) where
  child h hc := (onlyBears_iff.1 h).2 _ hc
  rebuilt h bare_eq below := onlyBears_iff.2 ⟨fun a bears => (onlyBears_iff.1 h).1 a
    ((bears_iff_of_tag?_eq (tag?_eq_of_bare_eq bare_eq)).1 bears), below⟩

theorem onlyBears_of_tag? (untagged : n.tag? = none) (below : ∀ c ∈ n.children, c.OnlyBears P) :
    n.OnlyBears P :=
  onlyBears_iff.2 ⟨fun _ bears => absurd bears (not_bears_of_tag? untagged), below⟩

theorem onlyBears_block {pos : Position} {nodes : List Node} (each : ∀ n ∈ nodes, n.OnlyBears P) :
    (block pos nodes).OnlyBears P :=
  onlyBears_of_tag? rfl each

end Node

section Injecting

variable {P : Attribute → Prop} {n m : Node}

theorem IsStatement.onlyBears {pos : Position} (h : IsStatement pos n) : n.OnlyBears P := by
  obtain ⟨source, rfl⟩ := h
  exact onlyBears_of_tag? rfl (by simp [statementNode, children])

theorem bears_withSpreads {spreads : List Spread} {a : Attribute} :
    (n.withSpreads spreads).Bears a ↔ n.Bears a := by
  cases n with
  | owner pos head block => cases head <;> simp [withSpreads, Bears, tag?]
  | _ => rfl

theorem children_withSpreads (n : Node) (spreads : List Spread) :
    (n.withSpreads spreads).children = n.children := by
  cases n with
  | owner pos head block => cases head <;> rfl
  | _ => rfl

theorem Forwards.onlyBears (h : Forwards n m) (holds : n.OnlyBears P) : m.OnlyBears P := by
  rcases h with rfl | ⟨source, rfl⟩
  · exact holds
  · unfold forward
    split
    · rw [onlyBears_iff, children_withSpreads]
      simp only [bears_withSpreads]
      exact onlyBears_iff.1 holds
    · exact holds

theorem onlyBears_of_injectAttributes {component : String} {usage : Option Usage} {b : Bindings}
    {pos : Position} {nodes out : List Node} (holds : ∀ n ∈ nodes, n.OnlyBears P)
    (h : (injectAttributes component usage b pos nodes).result = .ok out) : ∀ m ∈ out, m.OnlyBears P := by
  intro m hm
  rcases (injectAttributes_eq_ok h).1 m hm with ⟨n, statement, forwards⟩ | ⟨n, hn, forwards⟩
  · exact forwards.onlyBears statement.onlyBears
  · exact forwards.onlyBears (holds n hn)

end Injecting

namespace Expansion

variable {x : Expansion} {P : Attribute → Prop}

theorem onlyBears_of_instantiate {d : Definition} {call : Node} {nodes : List Node}
    (h : (x.instantiate d call).result = .ok nodes) (isCall : call.isCall = true)
    (holds : call.OnlyBears P) (body : ∀ n ∈ d.nodes, n.OnlyBears P) : ∀ n ∈ nodes, n.OnlyBears P := by
  obtain ⟨provided, bindings, injected, given, injection, filling⟩ := instantiate_eq_ok h
  have content : ∀ entry ∈ provided, entry.2.OnlyBears P :=
    Provided.inherited_of_mem (inherited_onlyBears P) (fun _ _ => onlyBears_block) isCall
      (onlyBears_iff.1 holds).2 given
  exact Provided.inherited_of_fill (inherited_onlyBears P) content
    (onlyBears_of_injectAttributes body injection) filling

theorem onlyBears_of_expandCall (bodies : ∀ d ∈ x.registry.definitions, ∀ n ∈ d.nodes, n.OnlyBears P)
    (depth : Nat) (stack : List String) : CallsInherit (OnlyBears P) (x.expandCall depth stack) := by
  induction depth generalizing stack with
  | zero =>
    intro m part _ _ h
    obtain ⟨_, _, _, depth_eq, -⟩ := expandCall_eq_ok h
    cases depth_eq
  | succ depth ih =>
    intro m part isCall holds h
    obtain ⟨name, called⟩ := exists_calledName? isCall
    obtain ⟨-, d, nodes, _, ⟨rfl⟩, found, made, run⟩ := expandCall_eq_ok_of_called called h
    have body := bodies d (Registry.mem_of_get? found)
    exact (inherited_onlyBears P).of_expandBlock (ih (stack ++ [name])) run
      (onlyBears_of_instantiate made isCall holds body)

end Expansion

section Reading

variable {names : List String}

theorem exists_of_bears_unescape {n : Node} {a : Attribute}
    (h : (n.mapOwners (Owner.unescape names)).Bears a) : ∃ b, n.Bears b ∧ a = b.unescape names := by
  obtain ⟨element', found, ha⟩ := h
  cases n with
  | owner pos head block =>
    cases head with
    | tag element =>
      simp only [mapOwners, Owner.unescape, tag?, Option.some.injEq] at found
      subst found
      obtain ⟨b, hb, rfl⟩ := List.mem_map.1 ha
      exact ⟨b, ⟨element, rfl, hb⟩, rfl⟩
    | _ => simp [mapOwners, Owner.unescape, tag?] at found
  | _ => simp [mapOwners, tag?] at found

theorem onlyBears_unescape {P Q : Attribute → Prop} (each : ∀ b, Q b → P (b.unescape names)) {n : Node}
    (holds : n.OnlyBears Q) : (n.mapOwners (Owner.unescape names)).OnlyBears P := by
  induction n using childInduction with
  | step n ih =>
    obtain ⟨self, below⟩ := onlyBears_iff.1 holds
    refine onlyBears_iff.2 ⟨?_, ?_⟩
    · intro a bears
      obtain ⟨b, borne, rfl⟩ := exists_of_bears_unescape bears
      exact each b (self b borne)
    · rw [children_mapOwners]
      intro c' hc'
      obtain ⟨c, hc, rfl⟩ := List.mem_map.1 hc'
      exact ih c hc (below c hc)

/-- The attribute is escaped no longer, since its value is one of the names. -/
def Attribute.UnescapedFrom (names : List String) (b a : Attribute) : Prop :=
  a = { b with mustEscape := .bool false } ∧ ∃ source, b.val = .str source ∧ Text.trim source ∈ names

theorem Attribute.unescape_cases (names : List String) (b : Attribute) :
    b.unescape names = b ∨ b.UnescapedFrom names (b.unescape names) := by
  unfold Attribute.unescape
  split
  · rename_i derived
    unfold Attribute.isDerived at derived
    split at derived
    · rename_i source val
      rw [Bool.and_eq_true, List.contains_iff_mem] at derived
      exact .inr ⟨rfl, source, val, derived.1⟩
    · cases derived
  · exact .inl rfl

/-- A definition bears the attributes of the body that its tag declares. Those with a derived value are
escaped no longer, if the component declares what it uses. -/
theorem Definition.onlyBears_of_ofNode {analysis : Analysis} {config : Config} {tag : Node}
    {d : Definition} (h : (ofNode config tag analysis).result = .ok d) :
    ∀ n ∈ d.nodes, n.OnlyBears fun a => ∃ origin ∈ tag.declaredBody.walk, ∃ b, origin.Bears b ∧
      (a = b ∨ d.usage.isSome = true ∧ b.UnescapedFrom d.scope.derived a) := by
  obtain ⟨nodes, -, -, body_eq, -, -, unescaping⟩ := ofNode_eq_ok h
  have written : ∀ n ∈ withoutName nodes,
      n.OnlyBears fun a => ∃ origin ∈ tag.declaredBody.walk, origin.Bears a := by
    intro n hn m hm a bears
    rw [body_eq]
    exact ⟨m, mem_walk_of_mem_children (show n ∈ (block tag.pos (withoutName nodes)).children from hn) hm,
      bears⟩
  rw [body_eq] at unescaping
  rcases unescaped_cases unescaping with same | ⟨usage, mapped⟩
  · rw [same]
    intro n hn m hm a bears
    obtain ⟨origin, ho, bears⟩ := written n hn m hm a bears
    exact ⟨origin, ho, a, bears, .inl rfl⟩
  · rw [mapped]
    intro m hm
    obtain ⟨n, hn, rfl⟩ := List.mem_map.1 hm
    refine onlyBears_unescape ?_ (written n hn)
    rintro b ⟨origin, ho, bears⟩
    refine ⟨origin, ho, b, bears, ?_⟩
    exact (b.unescape_cases d.scope.derived).imp id fun unescaped => ⟨usage, unescaped⟩

end Reading

end PugComponents

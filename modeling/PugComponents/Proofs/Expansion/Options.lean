import PugComponents.Proofs.Definition.Detected
import PugComponents.Proofs.Definition.Slots
import PugComponents.Proofs.Expansion.Agreement
import PugComponents.Proofs.Expansion.NormalForm

/-! What the options of an expansion decide. They say which names of its caller a component may read, and
so whether a definition is refused; what is read off a definition that is not refused they leave
alone. An expansion that succeeds therefore succeeds under all options that tolerate no less, and
with the same tree. -/

namespace PugComponents

open Node Outcome

/-- The second configuration refuses no name that the first one admits. -/
structure Config.Within (c c' : Config) : Prop where
  mode : c'.mode = .error → c.mode = .error
  allowed : c'.mode = .error → c.allowedGlobals ⊆ c'.allowedGlobals

namespace Scope

theorem analyze_eq_ok {allowed : List String} {body : Node} {scope : Scope}
    (h : analyze allowed body = .ok scope) :
    ∃ ss, scope = ofSightings allowed ss ∧
      ∀ allowed', analyze allowed' body = .ok (ofSightings allowed' ss) := by
  simp only [analyze, bind_eq_ok, pure_eq_ok] at h
  obtain ⟨ss, found, rfl⟩ := h
  refine ⟨ss, rfl, fun allowed' => ?_⟩
  rw [analyze, found]
  rfl

theorem derived_ofSightings (allowed allowed' : List String) (ss : List Sighting) :
    (ofSightings allowed' ss).derived = (ofSightings allowed ss).derived := rfl

theorem external_eq_nil_of_subset {allowed allowed' : List String} (sub : allowed ⊆ allowed')
    {ss : List Sighting} (h : (ofSightings allowed ss).external = []) :
    (ofSightings allowed' ss).external = [] := by
  simp only [ofSightings, List.filter_eq_nil_iff, Bool.not_eq_true', Bool.not_eq_false,
    Bool.or_eq_true, List.contains_iff_mem] at h ⊢
  intro name referenced
  rcases h name referenced with owned | allowed
  · exact .inl owned
  · exact .inr (sub allowed)

end Scope

namespace Definition

theorem toOption_readName (r r' : Reporter) (location location' : Location) (nodes : List Node) :
    (readName r location nodes).toOption = (readName r' location' nodes).toOption := by
  unfold readName
  split
  · rfl
  · rw [toOption_bind, toOption_bind]
    refine Option.bind_congr fun text _ => ?_
    split <;> rfl

theorem checkScope_eq_ok_iff {r : Reporter} {mode : ScopeMode} {name : String} {location : Location}
    {names : List String} :
    (checkScope r mode name location names).result = .ok () ↔ (mode = .error → names = []) := by
  induction names with
  | nil => simp [checkScope]
  | cons external names ih =>
    cases mode with
    | error => simp [checkScope]
    | warn => simpa [checkScope, Run.result_bind_eq_ok] using ih
    | off => simp [checkScope]

theorem slotOf_of_reporter {r : Reporter} {p : Placeholder} {slot : SlotDefinition}
    (h : slotOf r p = .ok slot) (r' : Reporter) :
    ∃ slot', slotOf r' p = .ok slot' ∧ key slot' = key slot := by
  simp only [slotOf, bind_eq_ok, pure_eq_ok] at h
  obtain ⟨name, named, rfl⟩ := h
  have named' : p.slot.slotName r' = .ok name := by
    rw [← toOption_eq_some_iff, toOption_slotName r' r, named, toOption_ok]
  simp only [slotOf, named']
  exact ⟨_, rfl, rfl⟩

theorem collectSlots_of_reporter {r : Reporter} (r' : Reporter) {visits : List Visit}
    {seen seen' slots : List SlotDefinition} (same : seen'.map key = seen.map key)
    (h : collectSlots r seen visits = .ok slots) :
    ∃ slots', collectSlots r' seen' visits = .ok slots' ∧ slots'.map key = slots.map key := by
  induction visits generalizing seen seen' with
  | nil =>
    simp only [collectSlots, Except.ok.injEq] at h
    exact ⟨seen', by rw [collectSlots], h ▸ same⟩
  | cons visit visits ih =>
    cases visit with
    | error f => simp [collectSlots] at h
    | ok p =>
      rw [collectSlots, bind_eq_ok] at h
      obtain ⟨slot, made, h⟩ := h
      obtain ⟨slot', made', key_eq⟩ := slotOf_of_reporter made r'
      split at h
      · cases h
      · rename_i fresh
        -- The slot is new for the one reporter as it is for the other.
        have fresh' := find?_eq_none_iff_key.1 fresh
        rw [← key_eq, ← same, ← find?_eq_none_iff_key] at fresh'
        obtain ⟨slots', run, keys⟩ :=
          ih (show (seen' ++ [slot']).map key = (seen ++ [slot]).map key by simp [same, key_eq]) h
        refine ⟨slots', ?_, keys⟩
        rw [collectSlots, bind_eq_ok]
        exact ⟨slot', made', by rw [fresh']; exact run⟩

theorem unescaped_eq_of_derived {scope scope' : Scope} (same : scope'.derived = scope.derived)
    (usage : Option Usage) (body : Node) :
    unescaped usage scope' body = unescaped usage scope body := by
  unfold unescaped
  rw [same]

/-- What is read off a `component` tag is read under all options that tolerate no less, with no more
difference than in places and in the names that belong to the caller. -/
theorem ofNode_of_within {c c' : Config} (within : c.Within c') {tag : Node} {d : Definition}
    (h : (ofNode c tag).result = .ok d) :
    ∃ d', (ofNode c' tag).result = .ok d' ∧ Interchangeable d d' := by
  simp only [ofNode, ofNodes, Run.result_bind_eq_ok, Run.result_lift, Run.result_pure,
    Except.ok.injEq] at h ⊢
  obtain ⟨nodes, below, name, named, slots, collected, usage, used, scope, analysed, _, admitted, body,
    unescaping, rfl⟩ := h
  have named' : readName c'.reporter (tag.location.withFilename c'.reporter.filename) nodes =
      .ok name := by
    rw [← toOption_eq_some_iff, toOption_readName _ c.reporter _
      (tag.location.withFilename c.reporter.filename), named, toOption_ok]
  obtain ⟨slots', collected', keys⟩ := collectSlots_of_reporter c'.reporter rfl collected
  obtain ⟨ss, rfl, analysed'⟩ := Scope.analyze_eq_ok analysed
  have admitted' : c'.mode = .error → (Scope.ofSightings c'.allowedGlobals ss).external = [] := by
    intro strict
    refine Scope.external_eq_nil_of_subset (within.allowed strict) ?_
    exact checkScope_eq_ok_iff.1 admitted (within.mode strict)
  have unescaping' := unescaped_eq_of_derived
    (Scope.derived_ofSightings c.allowedGlobals c'.allowedGlobals ss) usage
    (block tag.pos (withoutName nodes))
  refine ⟨_, ⟨nodes, below, name, named', slots', collected', usage, used, _, analysed' _, (),
    checkScope_eq_ok_iff.2 admitted', body, unescaping'.trans unescaping, rfl⟩, rfl, rfl, ?_, rfl⟩
  have names : slots'.map (·.name) = slots.map (·.name) := by
    simpa [key, Function.comp_def] using congrArg (List.map Prod.fst) keys
  exact (map_name_firstOfName slots').trans (names ▸ (map_name_firstOfName slots).symm)

end Definition

namespace Registry

theorem agrees_of_forall₂ {reg reg' : Registry}
    (h : List.Forall₂ Interchangeable reg.definitions reg'.definitions) : reg.Agrees reg' := by
  intro name
  unfold get?
  generalize reg.definitions = ds at h ⊢
  generalize reg'.definitions = ds' at h ⊢
  induction h with
  | nil => exact .none
  | @cons d d' ds ds' same _ ih =>
    simp only [List.find?_cons, same.name]
    split
    · exact .some same
    · exact ih

end Registry

theorem value?_finish {c c' : Config} {reg reg' : Registry} (agrees : reg.Agrees reg') (page : Node) :
    (Session.finish c reg page).value? = (Session.finish c' reg' page).value? := by
  have expanded : ((Expansion.mk reg c).tree [] page).value? =
      ((Expansion.mk reg' c').tree [] page).value? := Expansion.value?_tree agrees [] page
  simp only [Session.finish, Run.value?_bind, expanded]

theorem exists_forall₂_of_forall₂ {α β γ : Type} {R : α → β → Prop} {S : α → γ → Prop}
    {T : β → γ → Prop} {as : List α} {bs : List β} (h : List.Forall₂ R as bs)
    (step : ∀ a b, R a b → ∃ c, S a c ∧ T b c) :
    ∃ cs, List.Forall₂ S as cs ∧ List.Forall₂ T bs cs := by
  induction h with
  | nil => exact ⟨[], .nil, .nil⟩
  | @cons a b as bs first _ ih =>
    obtain ⟨c, left, right⟩ := step a b first
    obtain ⟨cs, lefts, rights⟩ := ih
    exact ⟨c :: cs, .cons left lefts, .cons right rights⟩

theorem detects_of_within {c c' : Config} (within : c.Within c') {page : Node} {reg : Registry}
    (detects : Detects {} c page reg) :
    ∃ reg', Detects {} c' page reg' ∧ reg.Agrees reg' := by
  obtain ⟨ds, read, same⟩ :=
    exists_forall₂_of_forall₂ detects.read fun tag d => Definition.ofNode_of_within within
  have names : ds.map Definition.name = reg.definitions.map Definition.name := by
    clear read
    generalize reg.definitions = before at same
    induction same with
    | nil => rfl
    | cons first _ ih => rw [List.map_cons, List.map_cons, first.name, ih]
  exact ⟨⟨ds, names ▸ reg.nodup⟩, ⟨detects.filed, read⟩, Registry.agrees_of_forall₂ same⟩

theorem expand_of_within {c c' : Config} (within : c.Within c') {page tree : Node}
    (h : (expand c page).result = .ok tree) : (expand c' page).result = .ok tree := by
  obtain ⟨reg, detects, finished⟩ := expand_eq_ok_iff.1 h
  obtain ⟨reg', detects', agrees⟩ := detects_of_within within detects
  refine expand_eq_ok_iff.2 ⟨reg', detects', ?_⟩
  rw [← Run.value?_eq_some_iff, ← value?_finish (c := c) agrees, Run.value?_eq_some_iff]
  exact finished

/-- The options have no influence on the expanded template. They decide whether there is one: what is
expanded strictly is so with more names allowed, and in the other modes, which do not differ. -/
theorem options_of_expand (c c' : Config) (page : Node) :
    (∀ tree tree', (expand c page).result = .ok tree → (expand c' page).result = .ok tree' →
      tree = tree') ∧
    (c.mode = .error → (c'.mode = .error → c.allowedGlobals ⊆ c'.allowedGlobals) →
      ∀ tree, (expand c page).result = .ok tree → (expand c' page).result = .ok tree) ∧
    (c.mode ≠ .error → c'.mode ≠ .error →
      ∀ tree, (expand c page).result = .ok tree ↔ (expand c' page).result = .ok tree) := by
  have tolerant : ∀ {c c' : Config}, c'.mode ≠ .error → c.Within c' :=
    fun lax => ⟨fun strict => absurd strict lax, fun strict => absurd strict lax⟩
  refine ⟨?_, ?_, ?_⟩
  · intro tree tree' h h'
    -- Both trees are what the most tolerant options give.
    have lax : ({ mode := .off } : Config).mode ≠ .error := by decide
    exact Except.ok.inj ((expand_of_within (tolerant lax) h).symm.trans
      (expand_of_within (tolerant lax) h'))
  · intro strict allowed tree h
    exact expand_of_within ⟨fun _ => strict, allowed⟩ h
  · intro lax lax' tree
    exact ⟨expand_of_within (tolerant lax'), expand_of_within (tolerant lax)⟩

/-- A component that hands a variable of its caller on to another one. -/
def readingPage : Node :=
  block {} [plainTag "component" [plainText "Inner()", plainTag "p" []],
    plainTag "component" [plainText "Outer()",
      .owner {} (.tag { label := .str "Inner", attrs := [{ name := .str "user" }] }) none],
    plainTag "Outer" []]

theorem options_readingPage : (expand {} readingPage).result.isOk = false ∧ ∃ tree,
    (expand { allowedGlobals := ["user"] } readingPage).result = .ok tree ∧
    (expand { allowedGlobals := ["page", "user"] } readingPage).result = .ok tree ∧
    (expand { mode := .warn, debug := .bool true } readingPage).result = .ok tree ∧
    (expand { mode := .off, filename := .str "page.pug" } readingPage).result = .ok tree := by
  refine ⟨by decide +kernel, ?_⟩
  have found : ∃ tree, (expand { allowedGlobals := ["user"] } readingPage).result = .ok tree :=
    Outcome.exists_ok_of_isOk (by decide +kernel)
  obtain ⟨tree, h⟩ := found
  have warned := (options_of_expand { allowedGlobals := ["user"] }
    { mode := .warn, debug := .bool true } readingPage).2.1 rfl (by simp) tree h
  refine ⟨tree, h, ?_, warned, ?_⟩
  · exact (options_of_expand { allowedGlobals := ["user"] } { allowedGlobals := ["page", "user"] }
      readingPage).2.1 rfl (by simp) tree h
  · exact ((options_of_expand { mode := .warn, debug := .bool true }
      { mode := .off, filename := .str "page.pug" } readingPage).2.2 (by simp) (by simp) tree).1 warned

end PugComponents

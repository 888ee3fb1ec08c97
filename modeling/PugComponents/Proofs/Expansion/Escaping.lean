import PugComponents.Proofs.Attributes.Bearing
import PugComponents.Proofs.Expansion.NormalForm

/-! Where the attributes of an expanded template come from. Each of them is written in the template, with
the escaping that it has there, unless it stands in the body of a component and its value is a name that
the component takes from `$props` or `$attrs`: only then is escaping turned off. -/

namespace PugComponents

open Node Outcome

/-- A piece of script in the body binds the name to a part of `$props` or `$attrs`. -/
def Node.Destructures (body : Node) (name : String) : Prop :=
  ∃ n ∈ body.walk, ∃ sightings, n.sightings = .ok sightings ∧
    ∃ s ∈ sightings, name ∈ s.props ∨ name ∈ s.attrs

theorem Node.exists_of_mem_survey {α : Type} {f : Node → Except Failure (List α)} {root : Node}
    {found : List α} (h : root.survey f = .ok found) {x : α} (hx : x ∈ found) :
    ∃ n ∈ root.walk, ∃ own, f n = .ok own ∧ x ∈ own := by
  simp only [survey, bind_eq_ok, pure_eq_ok] at h
  obtain ⟨parts, run, rfl⟩ := h
  obtain ⟨own, hown, hx⟩ := List.mem_flatten.1 hx
  obtain ⟨n, hn, contributed⟩ := exists_of_mem_mapM run hown
  exact ⟨n, hn, own, contribution_eq_ok contributed, hx⟩

theorem Scope.destructures_of_mem_derived {allowed : List String} {body : Node} {scope : Scope}
    (h : analyze allowed body = .ok scope) {name : String} (derived : name ∈ scope.derived) :
    body.Destructures name := by
  simp only [analyze, bind_eq_ok, pure_eq_ok] at h
  obtain ⟨ss, surveyed, rfl⟩ := h
  simp only [Scope.derived, ofSightings, NameSet.mem_ofList, List.mem_append, List.mem_flatMap] at derived
  have sighted : ∃ s ∈ ss, name ∈ s.props ∨ name ∈ s.attrs := by
    rcases derived with ⟨s, hs, bound⟩ | ⟨s, hs, bound⟩
    · exact ⟨s, hs, .inl bound⟩
    · exact ⟨s, hs, .inr bound⟩
  obtain ⟨s, hs, bound⟩ := sighted
  obtain ⟨n, hn, own, read, hs⟩ := exists_of_mem_survey surveyed hs
  exact ⟨n, hn, own, read, s, hs, bound⟩

variable {config : Config} {page : Node}

/-- Where an attribute of the expanded template comes from. -/
inductive Provenance (config : Config) (page : Node) (a : Attribute) : Prop where
  /-- It stands so on a tag outside of all definitions. -/
  | outside {origin : Node} (reached : origin ∈ page.walkUntil isDefinition)
    (notDefinition : origin.isDefinition = false) (bears : origin.Bears a)
  /-- It stands so in a definition. -/
  | inside {tag origin : Node} (member : tag ∈ page.walk) (isDefinition : tag.isDefinition = true)
    (reached : origin ∈ tag.walk) (bears : origin.Bears a)
  /-- It is escaped in the body of a component that declares what it uses, and its value is a name that
  the body binds to a part of `$props` or `$attrs`. -/
  | derived {tag origin : Node} {d : Definition} {b : Attribute} {source : String}
    (member : tag ∈ page.walk) (isDefinition : tag.isDefinition = true)
    (registered : d ∈ (registered {} config page).definitions)
    (reads : Detection.Reads {} config tag d) (usage : d.usage.isSome = true)
    (reached : origin ∈ tag.declaredBody.walk) (bears : origin.Bears b)
    (same : a = { b with mustEscape := .bool false }) (val : b.val = .str source)
    (destructured : tag.declaredBody.Destructures (Text.trim source))

theorem Node.outside_or_inside {m : Node} (hm : m ∈ page.walk) :
    m ∈ page.walkUntil isDefinition ∧ m.isDefinition = false ∨
      ∃ tag ∈ page.walk, tag.isDefinition = true ∧ m ∈ tag.walk := by
  induction page using childInduction with
  | step page ih =>
    by_cases isDefinition : page.isDefinition = true
    · exact .inr ⟨page, self_mem_walk page, isDefinition, hm⟩
    rw [Bool.not_eq_true] at isDefinition
    rcases mem_walk_iff.1 hm with rfl | ⟨c, hc, hm⟩
    · exact .inl ⟨self_mem_walkUntil _ _, isDefinition⟩
    · rcases ih c hc hm with ⟨reached, notDefinition⟩ | ⟨tag, htag, isTag, inside⟩
      · exact .inl ⟨mem_walkUntil_step.2 (.inr ⟨isDefinition, c, hc, reached⟩), notDefinition⟩
      · exact .inr ⟨tag, mem_walk_of_mem_children hc htag, isTag, inside⟩

theorem onlyBears_page (config : Config) (page : Node) : page.OnlyBears (Provenance config page) := by
  intro m hm a bears
  rcases outside_or_inside hm with ⟨reached, notDefinition⟩ | ⟨tag, htag, isTag, inside⟩
  · exact .outside reached notDefinition bears
  · exact .inside htag isTag inside bears

theorem Definition.mem_walk_of_mem_declaredBody {tag origin : Node}
    (isDefinition : tag.isDefinition = true) (h : origin ∈ tag.declaredBody.walk)
    (tagged : origin.tag? ≠ none) : origin ∈ tag.walk := by
  rcases mem_walk_iff.1 h with rfl | ⟨n, hn, inside⟩
  · exact absurd rfl tagged
  cases below : nodesBelow tag with
  | error e => simp [declaredBody, below, Except.toOption, block, children, withoutName] at hn
  | ok nodes =>
    have member : n ∈ withoutName nodes := by
      simpa [declaredBody, below, Except.toOption, block, children] using hn
    obtain ⟨b, hb, hn⟩ := exists_block_of_nodesBelow isDefinition below n (mem_of_mem_withoutName member)
    exact mem_walk_of_mem_children hb (mem_walk_of_mem_children hn inside)

theorem onlyBears_registered (detects : Detects {} config page (registered {} config page)) :
    ∀ d ∈ (registered {} config page).definitions, ∀ n ∈ d.nodes,
      n.OnlyBears (Provenance config page) := by
  intro d hd n hn m hm a bears
  obtain ⟨tag, htag, reads⟩ := exists_of_forall₂_right detects.read hd
  obtain ⟨member, isTag⟩ := List.mem_filter.1 htag
  obtain ⟨origin, reached, b, borne, same⟩ :=
    Definition.onlyBears_of_ofNode reads n hn m hm a bears
  rcases same with rfl | ⟨usage, same, source, val, derived⟩
  · have tagged : origin.tag? ≠ none := fun untagged => not_bears_of_tag? untagged borne
    exact .inside member isTag (Definition.mem_walk_of_mem_declaredBody isTag reached tagged) borne
  · obtain ⟨_, -, -, -, -, analysed, -⟩ := Definition.ofNode_eq_ok reads
    exact .derived member isTag hd reads usage reached borne same val
      (Scope.destructures_of_mem_derived analysed derived)

theorem onlyBears_of_expand {tree : Node} (wf : page.isWellFormed = true)
    (h : (expand config page).result = .ok tree) : tree.OnlyBears (Provenance config page) := by
  obtain ⟨expanded, kept, stages⟩ := expand_eq_ok h
  have inherited := inherited_onlyBears (Provenance config page)
  have calls : CallsInherit (OnlyBears (Provenance config page))
      ((Expansion.mk (registered {} config page) config).call []) :=
    Expansion.onlyBears_of_expandCall (onlyBears_registered (detects_of_expand h)) _ _
  have expandedWf := (settled_of_expandNode (call_settled wf stages.described) wf stages.expansion).1
  have keptWf := (isWellFormed_of_withoutDefinitions expandedWf stages.removal).1
  have bears := inherited.of_expandNode calls stages.expansion (onlyBears_page config page)
  exact inherited.of_flattenNode keptWf stages.flattening
    (inherited.of_withoutDefinitions expandedWf stages.removal bears)

/-- Every attribute of the expanded template comes from the template. One that is not escaped is not
escaped there either, or it stands in the body of a registered component that declares what it uses, and
its value is a name that the body binds to a part of `$props` or `$attrs`. -/
theorem escaping_of_expand {tree : Node} (wf : page.isWellFormed = true)
    (h : (expand config page).result = .ok tree) :
    ∀ n ∈ tree.walk, ∀ a, n.Bears a → Provenance config page a ∧
      (a.mustEscape = .bool false →
        (∃ origin ∈ page.walk, ∃ b, origin.Bears b ∧ b.name = a.name ∧ b.val = a.val ∧
          b.mustEscape = .bool false) ∨
        ∃ d ∈ (registered {} config page).definitions, d.usage.isSome = true ∧
          ∃ tag ∈ page.walk, Detection.Reads {} config tag d ∧
            ∃ origin ∈ tag.declaredBody.walk, ∃ b, origin.Bears b ∧ b.name = a.name ∧ b.val = a.val ∧
              ∃ source, b.val = .str source ∧ tag.declaredBody.Destructures (Text.trim source)) := by
  intro n hn a bears
  have provenance := onlyBears_of_expand wf h n hn a bears
  refine ⟨provenance, fun unescaped => ?_⟩
  cases provenance with
  | @outside origin reached _ borne =>
    exact .inl ⟨origin, mem_walk_of_mem_walkUntil reached, a, borne, rfl, rfl, unescaped⟩
  | @inside tag origin member _ reached borne =>
    exact .inl ⟨origin, mem_walk_trans reached member, a, borne, rfl, rfl, unescaped⟩
  | @derived tag origin d b source member _ known reads usage reached borne same val destructured =>
    subst same
    exact .inr ⟨d, known, usage, tag, member, reads, origin, reached, b, borne, rfl, rfl, source, val,
      destructured⟩

def rawPage : Node :=
  block {} [plainTag "component" [plainText "Frame()", plainTag "div" [plainTag "slot" []]],
    plainTag "Frame" [.owner {} (.tag { label := .str "p", attrs := [
      { name := .str "title", val := .str "title" },
      { name := .str "html", val := .str "html", mustEscape := .bool false }] }) none]]

def Attribute.isRaw (a : Attribute) : Bool :=
  match a.mustEscape with
  | .bool false => true
  | _ => false

theorem Attribute.mustEscape_of_isRaw {a : Attribute} (raw : a.isRaw = true) :
    a.mustEscape = .bool false := by
  unfold isRaw at raw
  split at raw
  · assumption
  · cases raw

theorem escaping_rawPage : ∃ tree, (expand {} rawPage).result = .ok tree ∧ ∃ n ∈ tree.walk, ∃ a,
    n.Bears a ∧ a.mustEscape = .bool false ∧ ∃ origin ∈ rawPage.walk, ∃ b, origin.Bears b ∧
      b.name = a.name ∧ b.val = a.val ∧ b.mustEscape = .bool false := by
  obtain ⟨tree, h⟩ : ∃ tree, (expand {} rawPage).result = .ok tree := exists_ok_of_isOk (by decide +kernel)
  have kept : (expand {} rawPage).result.toOption.any (fun tree =>
      tree.walk.any fun n => n.tag?.any fun e => e.attrs.any Attribute.isRaw) = true := by decide +kernel
  simp only [h, toOption_ok, Option.any_some, List.any_eq_true, Option.any_eq_true] at kept
  obtain ⟨n, hn, element, tag, a, ha, raw⟩ := kept
  have unescaped := Attribute.mustEscape_of_isRaw raw
  have bears : n.Bears a := ⟨element, tag, ha⟩
  refine ⟨tree, h, n, hn, a, bears, unescaped, ?_⟩
  rcases (escaping_of_expand (by decide +kernel) h n hn a bears).2 unescaped with
    written | ⟨d, known, usage, -⟩
  · exact written
  · -- The frame declares nothing that it uses.
    have undeclared : (registered {} {} rawPage).definitions.all (fun d => d.usage.isNone) = true := by
      decide +kernel
    rw [List.all_eq_true] at undeclared
    simp [Option.isNone_iff_eq_none.1 (undeclared d known)] at usage

end PugComponents

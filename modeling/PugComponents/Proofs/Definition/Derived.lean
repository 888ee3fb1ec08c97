import PugComponents.Proofs.Definition.Scope
import PugComponents.Proofs.Script.Destructured

/-! Names that a component body takes out of `$props` or `$attrs`. They are declared in the body, so that a
name of the caller is one that is read, is not declared, and is on neither of the two lists of names
that every body may read. -/

namespace PugComponents

open Node Outcome

namespace Sighting

def OwnsDerived (s : Sighting) : Prop := s.props ++ s.attrs ⊆ s.declared

theorem ownsDerived_ofFragment {f : Script.Fragment} (binds : f.BindsDeclared) :
    (ofFragment f).OwnsDerived := by
  have part (p : Script.Destructuring → Bool) :
      (f.destructurings.filter p).flatMap (·.bindings) ⊆ f.declared := by
    intro name bound
    obtain ⟨d, hd, bound⟩ := List.mem_flatMap.1 bound
    exact binds d (List.mem_filter.1 hd).1 bound
  exact List.append_subset.2 ⟨part _, part _⟩

theorem isCommon_ownsDerived : IsCommon OwnsDerived where
  ofFragment _ _ := ownsDerived_ofFragment (Script.Fragment.bindsDeclared_ofScript _ _)
  declares _ := List.nil_subset _
  reads _ := List.nil_subset _

end Sighting

namespace Scope

variable {allowed : List String} {ss : List Sighting}

theorem derived_subset_declared (owns : ∀ s ∈ ss, s.OwnsDerived) :
    (ofSightings allowed ss).derived ⊆ (ofSightings allowed ss).declared := by
  intro name derived
  have sorted (s : Sighting) (hs : s ∈ ss) (bound : name ∈ s.props ∨ name ∈ s.attrs) :
      name ∈ (ofSightings allowed ss).declared :=
    NameSet.mem_ofList.2 (List.mem_flatMap.2 ⟨s, hs, owns s hs (List.mem_append.2 bound)⟩)
  simp only [Scope.derived, ofSightings, NameSet.mem_ofList, List.mem_append, List.mem_flatMap] at derived
  obtain ⟨s, hs, bound⟩ | ⟨s, hs, bound⟩ := derived
  · exact sorted s hs (.inl bound)
  · exact sorted s hs (.inr bound)

/-- A script or a text that is none declares all that its destructurings bind, so that a body declares all
that it takes out of `$props` or `$attrs`. The names of the caller are those that are read and not
declared, but for those that every body may read. -/
theorem ownership_of_analyze (config : Config) :
    (∀ source isExpression, ∀ d ∈ (Script.Fragment.analyze source isExpression).destructurings,
      d.bindings ⊆ (Script.Fragment.analyze source isExpression).declared) ∧
    (∀ source script, ∀ d ∈ (Script.Fragment.ofScript source script).destructurings,
      d.bindings ⊆ (Script.Fragment.ofScript source script).declared) ∧
    ∀ body : Node, body.isWellFormed = true → ∃ scope, analyze config.allowedGlobals body = .ok scope ∧
      scope.derived ⊆ scope.declared ∧
      ∀ name, name ∈ scope.external ↔
        name ∈ scope.referenced ∧ name ∉ scope.declared ∧ name ∉ builtinNames ∧
          name ∉ config.allowedGlobals := by
  refine ⟨fun source isExpression => Script.Fragment.bindsDeclared_ofScript _ _,
    Script.Fragment.bindsDeclared_ofScript, fun body wf => ?_⟩
  obtain ⟨ss, surveyed⟩ := (sure_survey wf fun _ => sure_sightings).exists_ok
  have analysed : analyze config.allowedGlobals body = .ok (ofSightings config.allowedGlobals ss) := by
    rw [analyze, surveyed]
    rfl
  have owned : (ofSightings config.allowedGlobals ss).derived ⊆ _ :=
    derived_subset_declared (Sighting.isCommon_ownsDerived.of_mem_survey wf surveyed)
  refine ⟨_, analysed, owned, fun name => ?_⟩
  have declared := @owned name
  simp only [mem_external_iff analysed, allows, List.contains_eq_mem, Option.map_some, Option.getD_some,
    Bool.or_eq_false_iff, decide_eq_false_iff_not]
  tauto

end Scope

/-- The head of a loop, which is no script by itself, with a declaration behind it. -/
def openLoop : String := "for (const item of items) \x7b const \x7b label: title, ...rest \x7d = $props"

theorem ownership_lateDeclaration :
    (∃ scope, Scope.analyze [] lateDeclaration = .ok scope ∧ scope.derived ⊆ scope.declared ∧
      "$props" ∉ scope.external) ∧
    ["title", "rest"] ⊆ (Script.Fragment.ofScript openLoop none).declared := by
  have wf : lateDeclaration.isWellFormed = true := by decide +kernel
  have taken : (⟨"$props", ["label"], ["title", "rest"]⟩ : Script.Destructuring) ∈
      (Script.Fragment.ofScript openLoop none).destructurings := by decide +kernel
  obtain ⟨-, texts, bodies⟩ := Scope.ownership_of_analyze {}
  obtain ⟨scope, analysed, owned, external⟩ := bodies lateDeclaration wf
  refine ⟨⟨scope, analysed, owned, fun foreign => ?_⟩, texts openLoop none _ taken⟩
  have notBuiltin := ((external "$props").1 foreign).2.2.1
  exact notBuiltin (by decide)

end PugComponents

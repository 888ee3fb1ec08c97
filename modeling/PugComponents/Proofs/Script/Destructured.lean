import PugComponents.Script.Fragment

/-! Names that a declaration takes out of `$props` or `$attrs`. They are collected apart from the names that
are declared, by looking at the entries of one object pattern only, and in a text that is no script from the
text between the braces. Every one of them is declared. -/

namespace PugComponents.Script

/-- The names that the destructurings bind are declared. -/
def Names.BindsDeclared (names : Names) : Prop :=
  ∀ d ∈ names.destructurings, d.bindings ⊆ names.declared

namespace Names.BindsDeclared

variable {a b : Names}

theorem of_none (none : a.destructurings = []) : a.BindsDeclared := by
  simp [BindsDeclared, none]

theorem append (ha : a.BindsDeclared) (hb : b.BindsDeclared) : (a ++ b).BindsDeclared := by
  intro d hd
  rw [declared_append]
  rcases List.mem_append.1 hd with hd | hd
  · exact List.subset_append_of_subset_left _ (ha d hd)
  · exact List.subset_append_of_subset_right _ (hb d hd)

end Names.BindsDeclared

namespace Phrase

open Names

theorem declared_subset_namesAll {role : Role} {p : Phrase} {ps : List Phrase} (member : p ∈ ps) :
    (p.names role).declared ⊆ (namesAll role ps).declared := by
  induction ps with
  | nil => cases member
  | cons q ps ih =>
    rw [namesAll, declared_append]
    rcases List.mem_cons.1 member with rfl | member
    · exact List.subset_append_left ..
    · exact List.subset_append_of_subset_right _ (ih member)

theorem bindings_subset_declared (entry : Phrase) : (entryNames entry).2 ⊆ (entry.names .bound).declared := by
  unfold entryNames
  split <;> simp [names, declares]

theorem bindings_subset_of_destructuring? {target value : Phrase} {d : Destructuring}
    (h : destructuring? target value = some d) : d.bindings ⊆ (target.names .bound).declared := by
  unfold destructuring? at h
  split at h
  · split at h
    · obtain rfl := Option.some.inj h
      intro name bound
      obtain ⟨entry, member, bound⟩ := List.mem_flatMap.1 bound
      rw [names]
      exact declared_subset_namesAll member (bindings_subset_declared entry bound)
    · cases h
  · cases h

mutual

theorem bindsDeclared_names (role : Role) : ∀ p : Phrase, (p.names role).BindsDeclared
  | .absent | .atom _ | .shorthand _ => by
    rw [names]
    exact .of_none rfl
  | .name _ | .bare _ => by
    rw [names]
    split <;> exact .of_none rfl
  | .form _ parts => by
    rw [names]
    exact bindsDeclared_namesAll .evaluated parts
  | .declarator target value => by
    rw [names]
    have inside := (bindsDeclared_names .bound target).append (bindsDeclared_names .evaluated value)
    intro d hd
    rcases List.mem_append.1 hd with hd | hd
    · exact List.subset_append_of_subset_left _ (inside d hd)
    · have bound := bindings_subset_of_destructuring? (Option.mem_toList.1 hd)
      exact List.subset_append_of_subset_left _ (List.subset_append_of_subset_left _ bound)
  | .function label params body => by
    unfold names
    refine .append (.append ?_ (bindsDeclared_namesAll .bound params)) (bindsDeclared_names .evaluated body)
    split <;> exact .of_none rfl
  | .classDeclaration _ _ members => by
    rw [names]
    exact .append (.of_none rfl) (bindsDeclared_namesAll .evaluated members)
  | .handler param body => by
    rw [names]
    exact (bindsDeclared_names .bound param).append (bindsDeclared_names .evaluated body)
  | .iteration declares target subject body => by
    rw [names]
    exact ((bindsDeclared_names _ target).append (bindsDeclared_names .evaluated subject)).append
      (bindsDeclared_names .evaluated body)
  | .objectPattern entries => by
    rw [names]
    exact bindsDeclared_namesAll role entries
  | .arrayPattern items => by
    rw [names]
    exact bindsDeclared_namesAll role items
  | .pair key value => by
    rw [names]
    refine .append ?_ (bindsDeclared_names role value)
    split
    · exact bindsDeclared_names .evaluated key
    · exact .of_none rfl
  | .defaulted target value => by
    rw [names]
    exact (bindsDeclared_names role target).append (bindsDeclared_names .evaluated value)
  | .rest target => by
    rw [names]
    exact bindsDeclared_names role target
  | .parameter target value ascription => by
    rw [names]
    refine .append ((bindsDeclared_names role target).append (bindsDeclared_names .evaluated value)) ?_
    split
    · exact bindsDeclared_names .evaluated ascription
    · exact .of_none rfl

theorem bindsDeclared_namesAll (role : Role) : ∀ ps : List Phrase, (namesAll role ps).BindsDeclared
  | [] => .of_none rfl
  | p :: ps => (bindsDeclared_names role p).append (bindsDeclared_namesAll role ps)

end

end Phrase

namespace Fragment

def BindsDeclared (f : Fragment) : Prop := ∀ d ∈ f.destructurings, d.bindings ⊆ f.declared

theorem bindsDeclared_ofNames {names : Names} (parsed : Bool) (h : names.BindsDeclared) :
    (ofNames parsed names).BindsDeclared := fun d hd _ bound => mem_declared_ofNames.2 (h d hd bound)

theorem bindsDeclared_textNames (source : String) : (TextScan.names source).BindsDeclared := by
  intro d hd name bound
  have found := List.mem_flatMap.2 ⟨d, hd, bound⟩
  simp only [TextScan.names, List.mem_append]
  exact .inl (.inl (.inl (.inl (.inr found))))

theorem bindsDeclared_ofScript (source : String) (script : Option Phrase) :
    (ofScript source script).BindsDeclared := by
  cases script with
  | some phrase => exact bindsDeclared_ofNames true (phrase.bindsDeclared_names .evaluated)
  | none => exact bindsDeclared_ofNames false (bindsDeclared_textNames source)

end Fragment

end PugComponents.Script

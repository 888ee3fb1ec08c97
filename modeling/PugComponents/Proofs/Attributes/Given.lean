import Mathlib.Data.List.Induction
import Mathlib.Data.List.Nodup
import PugComponents.Attributes.Bindings
import PugComponents.Proofs.Tree.WellFormed

/-! What the attributes of a call give, and how it is collected. An attribute gives a piece of script to a
name; a name that is given again takes the new value. The attributes of a well-formed call all give
something, and so they can be bound. -/

namespace PugComponents

/-- The name and the piece of script that an attribute gives. A bare attribute gives its own name. -/
inductive Attribute.Gives (a : Attribute) : String × String → Prop
  | script {name source : String} :
    a.name = .str name → a.val = .str source → Gives a (name, source)
  | own {name : String} : a.name = .str name → a.val = .bool true → Gives a (name, name)
  | negated {name : String} : a.name = .str name → a.val = .bool false → Gives a (name, "false")

def lastGiven? (given : List (String × String)) (name : String) : Option String :=
  given.reverse.lookup name

def givenNames (given : List (String × String)) : List String := (given.map Prod.fst).eraseDups

section Distinct

theorem eraseDups_concat (l : List String) (a : String) :
    (l ++ [a]).eraseDups = if a ∈ l then l.eraseDups else l.eraseDups ++ [a] := by
  rw [List.eraseDups_append]
  split
  · rename_i old
    simp [List.removeAll, old]
  · rename_i new
    simp [List.removeAll, new, List.eraseDups_cons]

theorem nodup_eraseDups (l : List String) : l.eraseDups.Nodup := by
  induction l using List.reverseRecOn with
  | nil => simp
  | append_singleton l a ih =>
    rw [eraseDups_concat]
    split
    · exact ih
    · rename_i new
      simp only [List.nodup_append, ih, List.mem_eraseDups, List.mem_singleton, true_and]
      refine ⟨by simp, ?_⟩
      rintro b hb _ rfl rfl
      exact new hb

end Distinct

section Collected

variable {attrs : List Attribute} {given : List (String × String)}

/-- The bindings hold every name that was given, once, with the value that was given last. -/
structure Bindings.Collects (b : Bindings) (given : List (String × String)) : Prop where
  names : b.map Prod.fst = givenNames given
  value : ∀ p ∈ b, ∃ source, lastGiven? given p.1 = some source ∧ p.2 = .str source

theorem mem_put_of_nodup {fields : List (String × Json)} (nodup : (fields.map Prod.fst).Nodup)
    {key : String} {value : Json} {f : String × Json} (h : f ∈ Json.put fields key value) :
    f = (key, value) ∨ f ∈ fields ∧ f.1 ≠ key := by
  induction fields with
  | nil => exact .inl (List.mem_singleton.1 h)
  | cons g rest ih =>
    rw [List.map_cons, List.nodup_cons] at nodup
    rw [Json.put] at h
    split at h
    · rename_i same
      rcases List.mem_cons.1 h with rfl | h
      · exact .inl (by rw [same])
      · refine .inr ⟨List.mem_cons_of_mem _ h, fun eq => nodup.1 ?_⟩
        rw [same, ← eq]
        exact List.mem_map_of_mem h
    · rename_i differs
      rcases List.mem_cons.1 h with rfl | h
      · exact .inr ⟨by simp, differs⟩
      · exact (ih nodup.2 h).imp id fun h => ⟨List.mem_cons_of_mem _ h.1, h.2⟩

theorem lastGiven?_concat (given : List (String × String)) (name source other : String) :
    lastGiven? (given ++ [(name, source)]) other =
      if other = name then some source else lastGiven? given other := by
  rw [lastGiven?, List.reverse_concat, List.lookup_cons]
  by_cases same : other = name
  · simp [same]
  · rw [beq_false_of_ne same, if_neg same]
    rfl

theorem Bindings.Collects.put {b : Bindings} (h : b.Collects given) (name source : String) :
    Bindings.Collects (Json.put b name (.str source)) (given ++ [(name, source)]) := by
  have names := h.names
  refine ⟨?_, fun p hp => ?_⟩
  · have old : name ∈ b.map Prod.fst ↔ name ∈ given.map Prod.fst := by
      rw [names, givenNames, List.mem_eraseDups]
    rw [givenNames, List.map_append, List.map_singleton, eraseDups_concat, ← givenNames, ← names]
    split
    · rename_i known
      exact Json.put_keys_of_mem _ (old.2 known)
    · rename_i unknown
      exact Json.put_keys_of_not_mem _ (mt old.1 unknown)
  · have nodup : (b.map Prod.fst).Nodup := names ▸ nodup_eraseDups _
    rw [lastGiven?_concat]
    rcases mem_put_of_nodup nodup hp with rfl | ⟨hp, other⟩
    · exact ⟨source, if_pos rfl, rfl⟩
    · rw [if_neg other]
      exact h.value p hp

theorem Attribute.Gives.valueOf_eq {a : Attribute} {entry : String × String} (h : a.Gives entry) :
    a.name = .str entry.1 ∧ Bindings.valueOf entry.1 a.val = .str entry.2 := by
  cases h with
  | script name val => exact ⟨name, by rw [val]; rfl⟩
  | own name val => exact ⟨name, by rw [val]; rfl⟩
  | negated name val => exact ⟨name, by rw [val]; rfl⟩

theorem Attribute.exists_gives {a : Attribute} (typed : a.isTyped = true) : ∃ entry, a.Gives entry := by
  simp only [isTyped, Bool.and_eq_true, Bool.or_eq_true] at typed
  obtain ⟨⟨⟨named, valued⟩, -⟩, -⟩ := typed
  cases name : a.name with
  | str text =>
    cases val : a.val with
    | str source => exact ⟨_, .script name val⟩
    | bool value =>
      cases value with
      | true => exact ⟨_, .own name val⟩
      | false => exact ⟨_, .negated name val⟩
    | _ => simp [val, Json.isText, Json.isFlag] at valued
  | _ => simp [name, Json.isText] at named

theorem exists_given (typed : attrs.all Attribute.isTyped = true) :
    ∃ given, List.Forall₂ Attribute.Gives attrs given := by
  induction attrs with
  | nil => exact ⟨[], .nil⟩
  | cons a attrs ih =>
    rw [List.all_cons, Bool.and_eq_true] at typed
    obtain ⟨entry, gives⟩ := Attribute.exists_gives typed.1
    obtain ⟨given, rest⟩ := ih typed.2
    exact ⟨entry :: given, .cons gives rest⟩

theorem collects_extend (gives : List.Forall₂ Attribute.Gives attrs given) {b : Bindings}
    {done : List (String × String)} (h : b.Collects done) :
    ∃ b', b.extend attrs = .ok b' ∧ b'.Collects (done ++ given) := by
  induction gives generalizing b done with
  | nil => exact ⟨b, rfl, by rwa [List.append_nil]⟩
  | @cons a entry attrs given first _ ih =>
    obtain ⟨name, value⟩ := first.valueOf_eq
    obtain ⟨b', extended, collects⟩ := ih (h.put entry.1 entry.2)
    refine ⟨b', ?_, by rwa [List.append_assoc] at collects⟩
    rw [Bindings.extend, name]
    dsimp only
    rw [value]
    exact extended

theorem collects_ofAttributes (gives : List.Forall₂ Attribute.Gives attrs given) :
    ∃ b, Bindings.ofAttributes attrs = .ok b ∧ b.Collects given := by
  have start : Bindings.Collects [] [] := ⟨rfl, by simp⟩
  exact collects_extend gives start

end Collected

end PugComponents

import PugComponents.Config
import PugComponents.Proofs.Outcome

/-! Options that are spelled in two ways. A mapping and overrides read the same options, and prefer
different spellings of them: overrides are read as the mapping would be in which every option has its
other spelling. They come to the same configuration, or fail alike, where it does not matter which of two
spellings is read. -/

namespace PugComponents

namespace Config

open Outcome

variable {m : List (String × Json)}

def respelled : String → String
  | "scope_isolation" => "scopeIsolation"
  | "scopeIsolation" => "scope_isolation"
  | "allowed_globals" => "allowedGlobals"
  | "allowedGlobals" => "allowed_globals"
  | key => key

def respell (m : List (String × Json)) : List (String × Json) := m.map fun f => (respelled f.1, f.2)

theorem respelled_respelled (key : String) : respelled (respelled key) = key := by
  fun_cases respelled key with
  | case1 => rfl
  | case2 => rfl
  | case3 => rfl
  | case4 => rfl
  | case5 => simp [respelled, *]

theorem respelled_eq_iff {key key' : String} : respelled key = key' ↔ key = respelled key' := by
  constructor
  · rintro rfl
    exact (respelled_respelled key).symm
  · rintro rfl
    exact respelled_respelled key'

theorem lookup_respell (m : List (String × Json)) (key : String) :
    (respell m).lookup key = m.lookup (respelled key) := by
  induction m with
  | nil => rfl
  | cons f m ih =>
    have same : (key == respelled f.1) = (respelled key == f.1) := by
      rw [Bool.eq_iff_iff, beq_iff_eq, beq_iff_eq, respelled_eq_iff]
    rw [respell, List.map_cons, List.lookup_cons, List.lookup_cons, same, ← respell, ih]

abbrev Given (m : List (String × Json)) : Prop := ∀ f ∈ m, f.2.isNull = false

theorem given_respell (given : Given m) : Given (respell m) := by
  intro f hf
  obtain ⟨g, hg, rfl⟩ := List.mem_map.1 hf
  exact given g hg

theorem firstSet_eq (given : Given m) (keys : List String) :
    firstSet m keys = keys.findSome? fun key => m.lookup key := by
  unfold firstSet
  congr 1
  funext key
  cases found : m.lookup key with
  | none => rfl
  | some v =>
    obtain ⟨before, after, eq, -⟩ := List.lookup_eq_some_iff.1 found
    have notNull := given (key, v) (by rw [eq]; simp)
    simp [notNull]

theorem lastGiven_eq (given : Given m) (keys : List String) (swaps : keys.map respelled = keys.reverse) :
    lastGiven m keys = firstSet (respell m) keys := by
  have looked : (fun key => (respell m).lookup key) = (fun key => m.lookup key) ∘ respelled := by
    funext key
    exact lookup_respell m key
  rw [firstSet_eq (given_respell given), looked, ← List.findSome?_map, swaps, lastGiven]

abbrev Known (m : List (String × Json)) : Prop := ∀ f ∈ m, f.1 ∈ knownKeys

theorem unknownKeys_eq_nil (known : Known m) : unknownKeys m = [] := by
  have none : (m.map Prod.fst).filter (fun key => !knownKeys.contains key) = [] := by
    rw [List.filter_eq_nil_iff]
    intro key hkey
    obtain ⟨f, hf, rfl⟩ := List.mem_map.1 hkey
    simp [known f hf]
  rw [unknownKeys, none]
  rfl

def overrides (m : List (String × Json)) : Settings :=
  { mode := lastGiven m modeKeys, allowedGlobals := lastGiven m allowedKeys
    debug := lastGiven m ["debug"], filename := lastGiven m ["filename"] }

theorem merged_eq_apply (known : Known m) (c : Config) : c.merged m = c.apply (overrides m) := by
  cases m with
  | nil => rfl
  | cons f m => rw [merged, if_neg (by simp), if_neg (by simp [unknownKeys_eq_nil known]), overrides]

theorem merged_eq_ofMapping (known : Known m) (given : Given m) :
    ({} : Config).merged m = ofMapping (respell m) := by
  have mode := lastGiven_eq given modeKeys rfl
  have allowed := lastGiven_eq given allowedKeys rfl
  have debug := lastGiven_eq given ["debug"] rfl
  have filename := lastGiven_eq given ["filename"] rfl
  rw [merged_eq_apply known, overrides, mode, allowed, debug, filename, ofMapping]

/-- The same names are listed, and the same other values. -/
structure Listing.Same (l l' : Listing) : Prop where
  names : ∀ name, name ∈ l.names ↔ name ∈ l'.names
  others : ∀ v, v ∈ l.others ↔ v ∈ l'.others

theorem Listing.Same.refl (l : Listing) : l.Same l := ⟨fun _ => .rfl, fun _ => .rfl⟩

/-- Two configurations with the same options; what is allowed is a set. -/
structure Same (c c' : Config) : Prop where
  mode : c.mode = c'.mode
  allowed : Listing.Same ⟨c.allowedGlobals, c.otherAllowed⟩ ⟨c'.allowedGlobals, c'.otherAllowed⟩
  debug : c.debug = c'.debug
  filename : c.filename = c'.filename

/-- Where an option is spelled in both ways, both values are read alike. -/
structure SpelledAlike (m : List (String × Json)) : Prop where
  allowed : ∀ v w, m.lookup "allowed_globals" = some v → m.lookup "allowedGlobals" = some w →
    Alike Listing.Same (listedNames v) (listedNames w)
  mode : ∀ v w, m.lookup "scope_isolation" = some v → m.lookup "scopeIsolation" = some w →
    Alike Eq (ScopeMode.ofJson v) (ScopeMode.ofJson w)

/-- Which of two values is preferred does not matter if both are read alike. -/
theorem alike_or {α : Type} {R : α → α → Prop} (refl : ∀ a, R a a) {read : Option Json → Except Failure α}
    {o o' : Option Json} (both : ∀ v w, o = some v → o' = some w → Alike R (read (some v)) (read (some w))) :
    Alike R (read (o.or o')) (read (o'.or o)) := by
  cases o with
  | none =>
    rw [Option.none_or, Option.or_none]
    exact .refl refl _
  | some v =>
    cases o' with
    | none => exact .refl refl _
    | some w => exact both v w rfl rfl

def allowedFrom (c : Config) : Option Json → Except Failure Listing
  | some v => listedNames v
  | none => .ok { names := c.allowedGlobals, others := c.otherAllowed }

def modeFrom (c : Config) : Option Json → Except Failure ScopeMode
  | some v => ScopeMode.ofJson v
  | none => .ok c.mode

theorem apply_eq (c : Config) (s : Settings) :
    c.apply s = (do
      let allowed ← c.allowedFrom s.allowedGlobals
      let mode ← c.modeFrom s.mode
      return { mode := mode, allowedGlobals := allowed.names, otherAllowed := allowed.others
               debug := s.debug.getD c.debug, filename := s.filename.getD c.filename }) := by
  unfold apply allowedFrom modeFrom
  cases s.allowedGlobals <;> cases s.mode <;> rfl

theorem apply_alike {c : Config} {s s' : Settings} (debug : s.debug = s'.debug)
    (filename : s.filename = s'.filename)
    (allowed : Alike Listing.Same (c.allowedFrom s.allowedGlobals) (c.allowedFrom s'.allowedGlobals))
    (mode : Alike Eq (c.modeFrom s.mode) (c.modeFrom s'.mode)) : Alike Same (c.apply s) (c.apply s') := by
  rw [apply_eq, apply_eq, debug, filename]
  exact allowed.bind fun _ _ listed => mode.bind fun _ _ same => .ok ⟨same, listed, rfl, rfl⟩

theorem findSome?_pair (f : String → Option Json) (key key' : String) :
    [key, key'].findSome? f = (f key).or (f key') := by
  cases here : f key with
  | none => rw [List.findSome?_cons_of_isNone (by simp [here]), List.findSome?_singleton, Option.none_or]
  | some v => simp [here]

theorem firstSet_pair (given : Given m) (key key' : String) :
    firstSet m [key, key'] = (m.lookup key).or (m.lookup key') := by
  rw [firstSet_eq given, findSome?_pair]

theorem lastGiven_pair (m : List (String × Json)) (key key' : String) :
    lastGiven m [key, key'] = (m.lookup key').or (m.lookup key) :=
  findSome?_pair (fun key => m.lookup key) key' key

/-- Overrides of the defaults are read as the mapping is in which every option has its other spelling; so
a mapping and the same overrides come to the same configuration, or fail alike, if values in two
spellings of one option are read alike. -/
theorem spellings_of_merged (known : Known m) (given : Given m) :
    ({} : Config).merged m = ofMapping (respell m) ∧
      (SpelledAlike m → Alike Same (ofMapping m) (({} : Config).merged m)) := by
  refine ⟨merged_eq_ofMapping known given, fun alike => ?_⟩
  rw [merged_eq_apply known, ofMapping]
  refine apply_alike ?debug ?filename ?allowed ?mode
  case debug => exact firstSet_eq given _
  case filename => exact firstSet_eq given _
  case allowed =>
    show Alike Listing.Same (allowedFrom {} (firstSet m allowedKeys))
      (allowedFrom {} (lastGiven m allowedKeys))
    rw [allowedKeys, firstSet_pair given, lastGiven_pair]
    exact alike_or Listing.Same.refl alike.allowed
  case mode =>
    show Alike Eq (modeFrom {} (firstSet m modeKeys)) (modeFrom {} (lastGiven m modeKeys))
    rw [modeKeys, firstSet_pair given, lastGiven_pair]
    exact alike_or (fun _ => rfl) alike.mode

def twiceSpelled : List (String × Json) :=
  [("allowed_globals", .str " site, t,"), ("scopeIsolation", .str "warn"),
    ("allowedGlobals", .arr [.str "t", .str "site", .str "t"]), ("scope_isolation", .str "warn"),
    ("filename", .str "page.pug")]

theorem spellings_twiceSpelled :
    Known twiceSpelled ∧ Given twiceSpelled ∧ SpelledAlike twiceSpelled ∧
      Alike Same (ofMapping twiceSpelled) (({} : Config).merged twiceSpelled) := by
  have known : Known twiceSpelled := by decide
  have given : Given twiceSpelled := by decide
  have alike : SpelledAlike twiceSpelled := {
    allowed := by
      rintro _ _ ⟨⟩ ⟨⟩
      have names : splitNames " site, t," = ["site", "t"] := by decide +kernel
      exact .ok ⟨by simp [names, or_comm], by simp⟩
    mode := by
      rintro _ _ ⟨⟩ ⟨⟩
      exact .refl (fun _ => rfl) _ }
  exact ⟨known, given, alike, (spellings_of_merged known given).2 alike⟩

def torn : List (String × Json) := [("scope_isolation", .str "off"), ("scopeIsolation", .str "warn")]

/-- The mapping takes the one spelling and the overrides take the other. -/
theorem disagreement_torn :
    Known torn ∧ Given torn ∧ (ofMapping torn).map Config.mode = .ok .off ∧
      (({} : Config).merged torn).map Config.mode = .ok .warn ∧
      ¬ Alike Same (ofMapping torn) (({} : Config).merged torn) := by
  refine ⟨by decide, by decide, rfl, rfl, ?_⟩
  intro alike
  cases alike with
  | ok same => cases same.mode

end Config

end PugComponents

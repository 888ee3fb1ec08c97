import PugComponents.Proofs.Script.Outline
import PugComponents.Proofs.Script.Productions
import Mathlib.Data.List.Forall2

/-! How many parts of a sort a phrase can have. A rule tells how often a part with a given place and kind
can be shown in what it admits; phrases of kinds that only group others are looked into. What is found by
going through the rules holds of every tree that the productions admit. -/

namespace PugComponents.Script

open ParseTree

/-- What is seen of a part from outside: its place and its kind. -/
abbrev Label := Option Part × Option Kind

def tally (P : Label → Bool) (parts : List (Option Part × Outline)) : Nat :=
  parts.countP fun part => P (part.1, part.2.kind?)

@[simp] theorem tally_nil (P : Label → Bool) : tally P [] = 0 := rfl

@[simp] theorem tally_append (P : Label → Bool) (parts parts' : List (Option Part × Outline)) :
    tally P (parts ++ parts') = tally P parts + tally P parts' := List.countP_append

theorem tally_singleton (P : Label → Bool) (place : Option Part) (o : Outline) :
    tally P [(place, o)] = (P (place, o.kind?)).toNat := by
  cases holds : P (place, o.kind?) <;> simp [tally, holds]

def within (place : Option Part) (P : Label → Bool) : Label → Bool := fun l => P (place <|> l.1, l.2)

theorem tally_placed (P : Label → Bool) (place : Option Part) (parts : List (Option Part × Outline)) :
    tally P (parts.map fun (inner, o) => (place <|> inner, o)) = tally (within place P) parts := by
  rw [tally, List.countP_map]
  rfl

def Token.shownAs? (t : Token) (place : Option Part) : Option (Option Kind) :=
  match t with
  | .word => some (some .variable)
  | .number => some none
  | .text s => if valueWords.contains s || place.isSome then some none else none
  | _ => none

namespace Grammar

def rule? (k : Kind) : Option Rule := (rules.find? (·.1.ctorIdx == k.ctorIdx)).map Prod.snd

end Grammar

/-- How many parts with a property are shown at most in what a rule admits, where two stand for any number.
What is shown may be renamed and placed from outside, and `inside` says what is found in a phrase that only
groups others. -/
def Rule.most (inside : Kind → (Label → Bool) → Nat) :
    Rule → Option Kind → Option Part → (Label → Bool) → Nat
  | nothing, _, _, _ => 0
  | token _, some k, place, P | phrase _, some k, place, P | oneOrMore _, some k, place, P =>
    (P (place, some k)).toNat
  | token t, none, place, P =>
    match t.shownAs? place with
    | some kind => (P (place, kind)).toNat
    | none => 0
  | phrase k, none, place, P =>
    if (Grammar.rule? k).isNone then 2
    else if k.isHidden then inside k (within place P)
    else (P (place, some k)).toNat
  | oneOrMore r, none, place, P => if r.most inside none none (within place P) = 0 then 0 else 2
  | both a b, name, place, P => a.most inside name place P + b.most inside name place P
  | either a b, name, place, P => max (a.most inside name place P) (b.most inside name place P)
  | ranked _ _ r, name, place, P => r.most inside name place P
  | weighted _ r, name, place, P => r.most inside name place P
  | renamed k r, _, place, P => r.most inside (some k) place P
  | part p r, name, _, P => r.most inside name (some p) P

namespace Grammar

/-- What is found in a phrase, with so many phrases inside each other that only group others. -/
def inside : Nat → Kind → (Label → Bool) → Nat
  | 0, _, _ => 2
  | depth + 1, k, P =>
    match rule? k with
    | some r => r.most (inside depth) none none P
    | none => 2

/-- The numbers of tokens, kinds and repeated parts. They are never computed in a proof. -/
@[irreducible] def numbering : Numbering := .ofRules (orderedRules.map Prod.snd)

theorem numbering_eq : numbering = .ofRules (orderedRules.map Prod.snd) := by
  unfold numbering
  exact Eq.refl _

theorem getElem?_filterMap_of_length_eq {α β : Type} {f : α → Option β} {as : List α}
    (full : (as.filterMap f).length = as.length) (i : Nat) : (as.filterMap f)[i]? = as[i]?.bind f := by
  induction as generalizing i with
  | nil => rfl
  | cons a as ih =>
    have le := as.length_filterMap_le f
    cases found : f a with
    | none =>
      rw [List.filterMap_cons_none found, List.length_cons] at full
      omega
    | some b =>
      rw [List.filterMap_cons_some found] at full ⊢
      cases i with
      | zero => simp [found]
      | succ i => simpa using ih (by simpa using full) i

theorem ctorIdx_lt_length : ∀ kr ∈ rules, kr.1.ctorIdx < rules.length := by decide +kernel

theorem find?_of_rule? {k : Kind} {r : Rule} (h : rule? k = some r) :
    rules.find? (·.1.ctorIdx == k.ctorIdx) = some (k, r) := by
  obtain ⟨⟨k', r'⟩, found, rfl⟩ := Option.map_eq_some_iff.1 h
  have same : k'.ctorIdx = k.ctorIdx := by simpa using List.find?_some found
  obtain rfl : k' = k := by rw [← Kind.ofNat_ctorIdx k', same, Kind.ofNat_ctorIdx]
  exact found

theorem mem_rules_of_rule? {k : Kind} {r : Rule} (h : rule? k = some r) : (k, r) ∈ rules :=
  List.mem_of_find?_eq_some (find?_of_rule? h)

theorem getElem?_orderedRules {k : Kind} {r : Rule} (h : rule? k = some r) :
    orderedRules[k.ctorIdx]? = some (k, r) := by
  have lt := ctorIdx_lt_length _ (mem_rules_of_rule? h)
  rw [orderedRules, getElem?_filterMap_of_length_eq (length_orderedRules.trans List.length_range.symm),
    List.getElem?_range lt]
  exact find?_of_rule? h

theorem rule?_of_getElem? {i : Nat} {k : Kind} {r : Rule} (h : orderedRules[i]? = some (k, r)) :
    k.ctorIdx = i ∧ rule? k = some r := by
  rw [orderedRules, getElem?_filterMap_of_length_eq (length_orderedRules.trans List.length_range.symm)] at h
  obtain ⟨j, inRange, found⟩ := Option.bind_eq_some_iff.1 h
  obtain rfl : i = j := by
    obtain ⟨lt, same⟩ := List.getElem?_eq_some_iff.1 inRange
    rwa [List.getElem_range] at same
  have same : k.ctorIdx = i := by simpa using List.find?_some found
  exact ⟨same, by rw [rule?, same, found]; rfl⟩

end Grammar

open Grammar

structure Matches (steps : List Step) (ts : List ParseTree) : Prop where
  symbols : ts.map symbol = steps.map Step.symbol
  derivation : ∀ t ∈ ts, t.IsDerivation scriptTables
  solid : ∀ t ∈ ts, t.isComment = false

namespace Matches

variable {steps steps' : List Step} {ts : List ParseTree}

theorem of_node {p : Production} {parts : List ParseTree} {start stop : Nat} {weight : Int}
    (h : IsDerivation scriptTables (.node p parts start stop weight)) :
    Matches p.steps.toList (ParseTree.solid parts) := by
  cases h with
  | node _ symbols below =>
    refine ⟨symbols, fun t ht => below t (List.mem_of_mem_filter ht), fun t ht => ?_⟩
    simpa using (List.mem_filter.1 ht).2

theorem split (h : Matches (steps ++ steps') ts) :
    ∃ us vs, ts = us ++ vs ∧ Matches steps us ∧ Matches steps' vs := by
  have symbols := h.symbols
  rw [List.map_append] at symbols
  obtain ⟨us, vs, rfl, first, second⟩ := List.map_eq_append_iff.1 symbols
  have derivation := List.forall_mem_append.1 h.derivation
  have solid := List.forall_mem_append.1 h.solid
  exact ⟨us, vs, rfl, ⟨first, derivation.1, solid.1⟩, ⟨second, derivation.2, solid.2⟩⟩

theorem of_append {a b : Sequence} (h : Matches (a.append b).steps ts) :
    ∃ us vs, ts = us ++ vs ∧ Matches a.steps us ∧ Matches b.steps vs := split h

theorem single {step : Step} (h : Matches [step] ts) :
    ∃ t, ts = [t] ∧ t.symbol = step.symbol ∧ t.IsDerivation scriptTables ∧ t.isComment = false := by
  obtain ⟨t, rfl, symbol⟩ := List.map_eq_singleton_iff.1 h.symbols
  exact ⟨t, rfl, symbol, h.derivation t (by simp), h.solid t (by simp)⟩

theorem cons {step : Step} (h : Matches (step :: steps) ts) :
    ∃ t us, ts = t :: us ∧ t.symbol = step.symbol ∧ t.isComment = false ∧ Matches steps us := by
  obtain ⟨us, vs, rfl, first, second⟩ : ∃ us vs, ts = us ++ vs ∧ Matches [step] us ∧ Matches steps vs :=
    split h
  obtain ⟨t, rfl, symbol, -, solid⟩ := first.single
  exact ⟨t, vs, rfl, symbol, solid, second⟩

theorem of_map {f : Step → Step} (symbol : ∀ step, (f step).symbol = step.symbol)
    (h : Matches (steps.map f) ts) : Matches steps ts :=
  ⟨by rw [h.symbols, List.map_map]; exact List.map_congr_left fun step _ => symbol step, h.derivation,
    h.solid⟩

end Matches

structure Step.Meets (step : Step) (name : Option Kind) (place : Option Part) (symbol : Symbol)
    (t : ParseTree) : Prop where
  renamed : step.renamed = name
  part : step.part = place
  symbol : t.symbol = symbol
  derivation : t.IsDerivation scriptTables
  solid : t.isComment = false

/-- Steps that a rule admits, as they are renamed and placed from outside, with trees for them. Their ranks
and sides are left open, as they are not seen in a tree. -/
inductive Rule.Admits : Rule → Option Kind → Option Part → List Step → List ParseTree → Prop
  | nothing {name : Option Kind} {place : Option Part} : Admits nothing name place [] []
  | token {token : Token} {name : Option Kind} {place : Option Part} {step : Step} {t : ParseTree}
    (meets : step.Meets name place (.token (numbering.token token)) t) :
    Admits (.token token) name place [step] [t]
  | phrase {k : Kind} {name : Option Kind} {place : Option Part} {step : Step} {t : ParseTree}
    (meets : step.Meets name place (.phrase k.ctorIdx) t) : Admits (.phrase k) name place [step] [t]
  | both {a b : Rule} {name : Option Kind} {place : Option Part} {steps steps' : List Step}
    {ts ts' : List ParseTree} (first : Admits a name place steps ts)
    (second : Admits b name place steps' ts') : Admits (.both a b) name place (steps ++ steps') (ts ++ ts')
  | left {a b : Rule} {name : Option Kind} {place : Option Part} {steps : List Step} {ts : List ParseTree}
    (inner : Admits a name place steps ts) : Admits (.either a b) name place steps ts
  | right {a b : Rule} {name : Option Kind} {place : Option Part} {steps : List Step}
    {ts : List ParseTree} (inner : Admits b name place steps ts) : Admits (.either a b) name place steps ts
  | run {r : Rule} {name : Option Kind} {place : Option Part} {step : Step} {t : ParseTree}
    (meets : step.Meets name place (.phrase (numbering.run r)) t)
    (each : ∀ s ∈ r.expand numbering, ∀ ts, Matches s.steps ts → Admits r none none s.steps ts) :
    Admits (.oneOrMore r) name place [step] [t]
  | ranked {rank : Rank} {side : Option Side} {r : Rule} {name : Option Kind} {place : Option Part}
    {steps : List Step} {ts : List ParseTree} (inner : Admits r name place steps ts) :
    Admits (.ranked rank side r) name place steps ts
  | weighted {weight : Int} {r : Rule} {name : Option Kind} {place : Option Part} {steps : List Step}
    {ts : List ParseTree} (inner : Admits r name place steps ts) :
    Admits (.weighted weight r) name place steps ts
  | renamed {k : Kind} {r : Rule} {name : Option Kind} {place : Option Part} {steps : List Step}
    {ts : List ParseTree} (inner : Admits r (some k) place steps ts) :
    Admits (.renamed k r) name place steps ts
  | part {p : Part} {r : Rule} {name : Option Kind} {place : Option Part} {steps : List Step}
    {ts : List ParseTree} (inner : Admits r name (some p) steps ts) : Admits (.part p r) name place steps ts

theorem Rule.admits_of_matches {r : Rule} {s : Sequence} (member : s ∈ r.expand numbering)
    {ts : List ParseTree} (matching : Matches s.steps ts) {name : Option Kind} {place : Option Part}
    {view : Step → Step} (renamed : ∀ step, (view step).renamed = (step.renamed <|> name))
    (part : ∀ step, (view step).part = (step.part <|> place)) :
    r.Admits name place (s.steps.map view) ts := by
  -- What the rules around a rule say of its steps goes into the view.
  induction r generalizing s ts name place view with
  | nothing =>
    obtain rfl := List.mem_singleton.1 member
    obtain rfl : ts = [] := List.map_eq_nil_iff.1 matching.symbols
    exact .nothing
  | token token =>
    obtain rfl := List.mem_singleton.1 member
    obtain ⟨t, rfl, symbol, derivation, solid⟩ := matching.single
    exact .token ⟨renamed _, part _, symbol, derivation, solid⟩
  | phrase k =>
    obtain rfl := List.mem_singleton.1 member
    obtain ⟨t, rfl, symbol, derivation, solid⟩ := matching.single
    exact .phrase ⟨renamed _, part _, symbol, derivation, solid⟩
  | both a b iha ihb =>
    obtain ⟨sa, ha, hs⟩ := List.mem_flatMap.1 member
    obtain ⟨sb, hb, rfl⟩ := List.mem_map.1 hs
    obtain ⟨us, vs, rfl, first, second⟩ := Matches.of_append matching
    rw [show (sa.append sb).steps = sa.steps ++ sb.steps from rfl, List.map_append]
    exact .both (iha ha first renamed part) (ihb hb second renamed part)
  | either a b iha ihb =>
    rcases List.mem_append.1 (List.mem_eraseDups.1 member) with ha | hb
    · exact .left (iha ha matching renamed part)
    · exact .right (ihb hb matching renamed part)
  | oneOrMore r ih =>
    obtain rfl := List.mem_singleton.1 member
    obtain ⟨t, rfl, symbol, derivation, solid⟩ := matching.single
    refine .run ⟨renamed _, part _, symbol, derivation, solid⟩ fun s hs ts matching => ?_
    rw [← List.map_id s.steps]
    exact ih hs matching (fun step => by simp) fun step => by simp
  | ranked rank side r ih =>
    obtain ⟨s, hs, rfl⟩ := List.mem_map.1 member
    rw [Sequence.map, List.map_map]
    exact .ranked (ih hs (Matches.of_map (fun _ => by rfl) matching) (fun _ => renamed _) fun _ => part _)
  | weighted w r ih =>
    obtain ⟨s, hs, rfl⟩ := List.mem_map.1 member
    exact .weighted (ih hs matching renamed part)
  | renamed k r ih =>
    obtain ⟨s, hs, rfl⟩ := List.mem_map.1 member
    rw [Sequence.map, List.map_map]
    refine .renamed (ih hs (Matches.of_map (fun _ => by rfl) matching) (fun step => ?_) fun _ => part _)
    rw [Function.comp_apply, renamed]
    cases step.renamed <;> rfl
  | part p r ih =>
    obtain ⟨s, hs, rfl⟩ := List.mem_map.1 member
    rw [Sequence.map, List.map_map]
    refine .part (ih hs (Matches.of_map (fun _ => by rfl) matching) (fun _ => renamed _) fun step => ?_)
    rw [Function.comp_apply, part]
    cases step.part <;> rfl

theorem Rule.admits_self {r : Rule} {s : Sequence} (member : s ∈ r.expand numbering)
    {ts : List ParseTree} (matching : Matches s.steps ts) : r.Admits none none s.steps ts := by
  rw [← List.map_id s.steps]
  exact admits_of_matches member matching (fun step => by simp) fun step => by simp

theorem Rule.Admits.solid {r : Rule} {name : Option Kind} {place : Option Part} {steps : List Step}
    {ts : List ParseTree} (h : r.Admits name place steps ts) :
    List.Forall₂ (fun _ t => t.isComment = false) steps ts := by
  induction h with
  | nothing => exact .nil
  | token meets | phrase meets | run meets => exact .cons meets.solid .nil
  | both _ _ first second => exact List.rel_append first second
  | left _ ih | right _ ih | ranked _ ih | weighted _ ih | renamed _ ih | part _ ih => exact ih

section Outlines

variable {steps steps' : List Step} {us vs : List ParseTree}

theorem partOutlines_cons (g : Tables) (step : Step) (steps : List Step) {t : ParseTree}
    (solid : t.isComment = false) (ts : List ParseTree) : partOutlines g (step :: steps) (t :: ts) =
      (t.outlines g (some step)).map (fun (place, o) => (step.part <|> place, o)) ++
        partOutlines g steps ts := by
  rw [partOutlines]
  simp [solid]

theorem partOutlines_append (g : Tables) (solid : List.Forall₂ (fun _ t => t.isComment = false) steps us) :
    partOutlines g (steps ++ steps') (us ++ vs) = partOutlines g steps us ++ partOutlines g steps' vs := by
  induction solid with
  | nil => simp [partOutlines]
  | @cons step t steps us first _ ih =>
    rw [List.cons_append, List.cons_append, partOutlines_cons g step _ first,
      partOutlines_cons g step _ first, ih, List.append_assoc]

theorem outlines_congr (g : Tables) {step step' : Step} (renamed : step.renamed = step'.renamed)
    (part : step.part = step'.part) (t : ParseTree) :
    t.outlines g (some step) = t.outlines g (some step') := by
  cases t <;> simp only [outlines, Option.bind_some, renamed, part]

end Outlines

section Tables

structure Rule.IsKnown (r : Rule) : Prop where
  tokens : ∀ t ∈ r.tokens, t ∈ numbering.tokens
  runs : ∀ item ∈ r.repeated, item ∈ numbering.runs

theorem isKnown_of_mem {r : Rule} (h : r ∈ orderedRules.map Prod.snd) : r.IsKnown := by
  constructor <;> rw [numbering_eq]
  · exact fun _ => Numbering.mem_tokens_ofRules h
  · exact fun _ => Numbering.mem_runs_ofRules h

namespace Rule.IsKnown

variable {a b r : Rule}

theorem both_iff : (both a b).IsKnown ↔ a.IsKnown ∧ b.IsKnown := by
  constructor
  · intro h
    obtain ⟨tokens, tokens'⟩ := List.forall_mem_append.1 h.tokens
    obtain ⟨runs, runs'⟩ := List.forall_mem_append.1 h.runs
    exact ⟨⟨tokens, runs⟩, ⟨tokens', runs'⟩⟩
  · exact fun h => ⟨List.forall_mem_append.2 ⟨h.1.tokens, h.2.tokens⟩,
      List.forall_mem_append.2 ⟨h.1.runs, h.2.runs⟩⟩

theorem repeated (h : (oneOrMore r).IsKnown) : r.IsKnown ∧ r ∈ numbering.runs := by
  obtain ⟨runs, run⟩ := List.forall_mem_append.1 h.runs
  exact ⟨⟨h.tokens, runs⟩, run r (List.mem_singleton_self r)⟩

end Rule.IsKnown

theorem mem_orderedRules_of_rule? {k : Kind} {r : Rule} (h : rule? k = some r) :
    r ∈ orderedRules.map Prod.snd :=
  List.mem_map.2 ⟨(k, r), List.mem_of_getElem? (getElem?_orderedRules h), rfl⟩

theorem getD_tokens {t : Token} (known : t ∈ numbering.tokens) :
    scriptTables.tokens.getD (numbering.token t) .ending = t := by
  rw [scriptTables, Tables.tokens_ofGrammar, ← numbering_eq]
  exact Numbering.getD_tokens known .ending

theorem getElem?_kinds {k : Kind} {r : Rule} (h : rule? k = some r) :
    scriptTables.kinds[k.ctorIdx]? = some k := by
  rw [scriptTables, Tables.getElem?_kinds_ofGrammar, getElem?_orderedRules h, Option.map_some]

theorem kinds_numbering : numbering.kinds = (orderedRules.map Prod.snd).length := by
  rw [numbering_eq, Numbering.kinds_ofRules]

theorem getElem?_kinds_run (item : Rule) : scriptTables.kinds[numbering.run item]? = none := by
  have le := numbering.kinds_le_run item
  rw [kinds_numbering, List.length_map] at le
  rw [scriptTables, Tables.getElem?_kinds_ofGrammar, List.getElem?_eq_none le, Option.map_none]

theorem origin_of_mem_productions {p : Production} (h : p ∈ scriptTables.productions) :
    Origin numbering (orderedRules.map Prod.snd) Kind.program.ctorIdx p := by
  rw [numbering_eq]
  exact Tables.origin_of_mem_productions h

theorem exists_sequence_of_rule? {k : Kind} {r : Rule} {p : Production} (h : rule? k = some r)
    (member : p ∈ scriptTables.productions) (head : p.head = k.ctorIdx) :
    ∃ s ∈ r.expand numbering, p.steps.toList = s.steps := by
  refine (origin_of_mem_productions member).of_rule kinds_numbering ?_
  rw [head, List.getElem?_map, getElem?_orderedRules h, Option.map_some]

end Tables

section Bounds

variable {P : Label → Bool} {name : Option Kind} {place : Option Part} {t : ParseTree}

theorem tally_step (step : Step) (solid : t.isComment = false) :
    tally P (partOutlines scriptTables [step] [t]) =
      tally (within step.part P) (t.outlines scriptTables (some step)) := by
  rw [partOutlines_cons scriptTables step [] solid, tally_append, tally_placed]
  simp [partOutlines]

theorem within_apply_none (place : Option Part) (P : Label → Bool) (kind : Option Kind) :
    within place P (none, kind) = P (place, kind) := by
  rw [within]
  cases place <;> rfl

theorem outlines_of_renamed (g : Tables) {step : Step} {k : Kind} (renamed : step.renamed = some k)
    (t : ParseTree) : ∃ o, t.outlines g (some step) = [(none, o)] ∧ o.kind? = some k := by
  cases t with
  | leaf token gap text start stop isComment =>
    exact ⟨.phrase k (.leaf token gap text start stop isComment) [], by simp [outlines, renamed], rfl⟩
  | node p parts start stop weight =>
    exact ⟨.phrase k (.node p parts start stop weight) (partOutlines g p.steps.toList parts),
      by simp [outlines, renamed], rfl⟩

theorem tally_renamed {step : Step} {k : Kind} (renamed : step.renamed = some k)
    (solid : t.isComment = false) :
    tally P (partOutlines scriptTables [step] [t]) = (P (step.part, some k)).toNat := by
  obtain ⟨o, shown, kind⟩ := outlines_of_renamed scriptTables renamed t
  rw [tally_step step solid, shown, tally_singleton, kind, within_apply_none]

section Nodes

variable {step : Step} {p : Production} {parts : List ParseTree} {start stop : Nat} {weight : Int}

def Step.kindOf (g : Tables) (step : Step) (p : Production) : Option Kind :=
  step.renamed <|> (g.kinds[p.head]?).filter fun k => !k.isHidden

theorem outlines_of_kindOf_none (g : Tables) (kind : step.kindOf g p = none) :
    (ParseTree.node p parts start stop weight).outlines g (some step) =
      partOutlines g p.steps.toList parts := by
  rw [Step.kindOf] at kind
  simp only [outlines, Option.bind_some, kind]

theorem outlines_of_kindOf (g : Tables) {k : Kind} (kind : step.kindOf g p = some k) :
    (ParseTree.node p parts start stop weight).outlines g (some step) =
      [(none, .phrase k (.node p parts start stop weight) (partOutlines g p.steps.toList parts))] := by
  rw [Step.kindOf] at kind
  simp only [outlines, Option.bind_some, kind]

theorem kindOf_of_renamed_none (g : Tables) (renamed : step.renamed = none) :
    step.kindOf g p = (g.kinds[p.head]?).filter fun k => !k.isHidden := by
  rw [Step.kindOf, renamed]
  rfl

end Nodes

theorem tally_leaf {step : Step} (renamed : step.renamed = none) {token : Token}
    (known : token ∈ numbering.tokens) {gap text : List Char} {start stop : Nat} {isComment : Bool} :
    tally P ((ParseTree.leaf (numbering.token token) gap text start stop isComment).outlines scriptTables
        (some step)) =
      match token.shownAs? step.part with
      | some kind => (P (none, kind)).toNat
      | none => 0 := by
  rw [outlines, getD_tokens known]
  simp only [Option.bind_some, renamed]
  cases token with
  | text s =>
    simp only [Token.shownAs?]
    by_cases shown : (valueWords.contains s || step.part.isSome) = true
    · rw [if_pos shown, if_pos shown]
      exact tally_singleton ..
    · rw [if_neg shown, if_neg shown]
      rfl
  | word | number => exact tally_singleton ..
  | _ => rfl

def InsideBounds (inside : Kind → (Label → Bool) → Nat) : Prop :=
  ∀ k P p parts start stop weight, p.head = k.ctorIdx →
    IsDerivation scriptTables (.node p parts start stop weight) → inside k P ≤ 1 →
      tally P (partOutlines scriptTables p.steps.toList parts) ≤ inside k P

variable {inside : Kind → (Label → Bool) → Nat}

theorem outlines_of_run {item : Rule} {step : Step} (renamed : step.renamed = none) {p : Production}
    (head : p.head = numbering.run item) {parts : List ParseTree} {start stop : Nat} {weight : Int} :
    (ParseTree.node p parts start stop weight).outlines scriptTables (some step) =
      partOutlines scriptTables p.steps.toList parts := by
  have kind : step.kindOf scriptTables p = none := by
    rw [kindOf_of_renamed_none _ renamed, head, getElem?_kinds_run]
    rfl
  exact outlines_of_kindOf_none _ kind

theorem tally_run_eq_zero {item : Rule} (run : item ∈ numbering.runs)
    (silent : ∀ s ∈ item.expand numbering, ∀ ts, Matches s.steps ts →
      tally P (partOutlines scriptTables s.steps ts) = 0)
    (derivation : t.IsDerivation scriptTables) {step : Step} (renamed : step.renamed = none)
    (symbol : t.symbol = .phrase (numbering.run item)) :
    tally P (t.outlines scriptTables (some step)) = 0 := by
  induction derivation generalizing step with
  | leaf => cases symbol
  | @node p parts start stop weight member symbols below ih =>
    have head : p.head = numbering.run item := Symbol.phrase.inj symbol
    have derivation : IsDerivation scriptTables (.node p parts start stop weight) :=
      .node member symbols below
    have matching := Matches.of_node derivation
    rw [outlines_of_run renamed head, ← partOutlines_solid]
    rcases (origin_of_mem_productions member).of_run kinds_numbering run head with steps | ⟨s, hs, steps⟩
    · -- a longer run consists of two shorter ones
      rw [steps] at matching ⊢
      obtain ⟨t, us, split, symbol, solid, second⟩ := matching.cons
      obtain ⟨t', rfl, symbol', -, solid'⟩ := second.single
      have mem {t : ParseTree} (ht : t ∈ ParseTree.solid parts) : t ∈ parts := List.mem_of_mem_filter ht
      have ht : t ∈ parts := mem (by rw [split]; simp)
      have ht' : t' ∈ parts := mem (by rw [split]; simp)
      rw [split, partOutlines_cons _ _ _ solid, tally_append, tally_placed,
        tally_step _ solid']
      exact Nat.add_eq_zero_iff.2 ⟨ih t ht rfl symbol, ih t' ht' rfl symbol'⟩
    · rw [steps] at matching ⊢
      exact silent s hs _ matching

theorem tally_token {token : Token} (known : token ∈ numbering.tokens) {step : Step}
    (meets : step.Meets name place (.token (numbering.token token)) t) :
    tally P (partOutlines scriptTables [step] [t]) = (Rule.token token).most inside name place P := by
  obtain ⟨renamed, rfl, symbol, -, solid⟩ := meets
  cases name with
  | some k => exact tally_renamed renamed solid
  | none =>
    cases t with
    | node => cases symbol
    | leaf n gap text start stop isComment =>
      obtain rfl : n = numbering.token token := Symbol.token.inj symbol
      rw [tally_step step solid, tally_leaf renamed known]
      simp only [within_apply_none]
      rfl

theorem tally_phrase_le (bounds : InsideBounds inside) {k : Kind} {step : Step}
    (meets : step.Meets name place (.phrase k.ctorIdx) t)
    (le : (Rule.phrase k).most inside name place P ≤ 1) :
    tally P (partOutlines scriptTables [step] [t]) ≤ (Rule.phrase k).most inside name place P := by
  obtain ⟨renamed, rfl, symbol, derivation, solid⟩ := meets
  cases name with
  | some k => exact Nat.le_of_eq (tally_renamed renamed solid)
  | none =>
    cases t with
    | leaf => cases symbol
    | node p parts start stop weight =>
      have head : p.head = k.ctorIdx := Symbol.phrase.inj symbol
      rw [tally_step step solid]
      rw [Rule.most] at le ⊢
      cases found : rule? k with
      | none => simp [found] at le
      | some r =>
        have kind := getElem?_kinds found
        rw [← head] at kind
        cases hidden : k.isHidden with
        | true =>
          simp only [found, hidden, Option.isNone_some, Bool.false_eq_true, if_false, if_true] at le ⊢
          rw [outlines_of_kindOf_none _ (by rw [kindOf_of_renamed_none _ renamed]; simp [kind, hidden])]
          exact bounds k _ p parts start stop weight head derivation le
        | false =>
          rw [outlines_of_kindOf _ (k := k) (by rw [kindOf_of_renamed_none _ renamed]; simp [kind, hidden]),
            tally_singleton]
          exact Nat.le_of_eq (congrArg Bool.toNat (within_apply_none ..))

/-- Trees that a rule admits show no more than the rule tells. -/
theorem tally_le_most (bounds : InsideBounds inside) {r : Rule} (known : r.IsKnown) {steps : List Step}
    {ts : List ParseTree} (admits : r.Admits name place steps ts) (le : r.most inside name place P ≤ 1) :
    tally P (partOutlines scriptTables steps ts) ≤ r.most inside name place P := by
  induction admits generalizing P with
  | nothing => simp [partOutlines]
  | token meets => exact Nat.le_of_eq (tally_token (known.tokens _ (List.mem_singleton_self _)) meets)
  | phrase meets => exact tally_phrase_le bounds meets le
  | both first _ iha ihb =>
    obtain ⟨known, known'⟩ := Rule.IsKnown.both_iff.1 known
    rw [Rule.most] at le ⊢
    rw [partOutlines_append _ first.solid, tally_append]
    exact Nat.add_le_add (iha known (by omega)) (ihb known' (by omega))
  | left _ ih =>
    obtain ⟨known, -⟩ := Rule.IsKnown.both_iff.1 ⟨known.tokens, known.runs⟩
    rw [Rule.most] at le ⊢
    exact Nat.le_trans (ih known (by omega)) (Nat.le_max_left ..)
  | right _ ih =>
    obtain ⟨-, known⟩ := Rule.IsKnown.both_iff.1 ⟨known.tokens, known.runs⟩
    rw [Rule.most] at le ⊢
    exact Nat.le_trans (ih known (by omega)) (Nat.le_max_right ..)
  -- A run repeats what its parts show, so it is bounded only if they show nothing.
  | @run r name place step t meets each ih =>
    obtain ⟨known, run⟩ := known.repeated
    obtain ⟨renamed, rfl, symbol, derivation, solid⟩ := meets
    cases name with
    | some k => exact Nat.le_of_eq (tally_renamed renamed solid)
    | none =>
      rw [Rule.most] at le ⊢
      split at le
      · rename_i silent
        rw [if_pos silent, tally_step step solid]
        refine Nat.le_of_eq (tally_run_eq_zero run (fun s hs ts matching => ?_) derivation renamed symbol)
        have le := ih s hs ts matching known (silent ▸ Nat.zero_le 1)
        rw [silent] at le
        exact Nat.le_zero.1 le
      · omega
  | ranked _ ih | weighted _ ih | renamed _ ih | part _ ih => exact ih ⟨known.tokens, known.runs⟩ le

theorem insideBounds_inside (depth : Nat) : InsideBounds (Grammar.inside depth) := by
  induction depth with
  | zero =>
    intro k P p parts start stop weight _ _ le
    simp [Grammar.inside] at le
  | succ depth ih =>
    intro k P p parts start stop weight head derivation le
    rw [Grammar.inside] at le ⊢
    split at le
    · rename_i r found
      obtain ⟨s, member, steps⟩ := exists_sequence_of_rule? found derivation.mem_productions head
      have matching := Matches.of_node derivation
      rw [steps] at matching ⊢
      rw [← partOutlines_solid]
      have known := isKnown_of_mem (mem_orderedRules_of_rule? found)
      exact tally_le_most ih known (Rule.admits_self member matching) le
    · omega

end Bounds

end PugComponents.Script

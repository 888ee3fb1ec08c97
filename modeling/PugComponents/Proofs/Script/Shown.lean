import PugComponents.Proofs.Script.Readings
import PugComponents.Proofs.Script.Regular

/-! The text of a phrase and what is shown of it. Both follow from the rule that the phrase keeps to: a
relation between rules, texts and parts says it without productions and without numbers. Runs of repeated
parts are lists in it. Trees are looked at that have no comments, and of which the white space before every
piece has some property. -/

namespace PugComponents.Script

open ParseTree Grammar

namespace ParseTree

inductive AllGaps (P : List Char → Prop) : ParseTree → Prop where
  | leaf {gap : List Char} (holds : P gap) (token : Nat) (text : List Char) (start stop : Nat) :
    AllGaps P (leaf token gap text start stop false)
  | node {production : Production} {parts : List ParseTree} (start stop : Nat) (weight : Int)
    (below : ∀ t ∈ parts, AllGaps P t) : AllGaps P (node production parts start stop weight)

variable {P : List Char → Prop} {t : ParseTree} {ts : List ParseTree}

theorem AllGaps.isComment (h : t.AllGaps P) : t.isComment = false := by
  cases h <;> rfl

theorem solid_eq_self (h : ∀ t ∈ ts, t.AllGaps P) : solid ts = ts :=
  List.filter_eq_self.2 fun t ht => by simp [(h t ht).isComment]

theorem spacedTextAll_append (ts us : List ParseTree) :
    spacedTextAll (ts ++ us) = spacedTextAll ts ++ spacedTextAll us := by
  induction ts with
  | nil => rfl
  | cons t ts ih => simp only [List.cons_append, spacedTextAll, ih, List.append_assoc]

/-- A tree that the productions admit, without comments, and with a property of all its white space. -/
structure IsPlain (P : List Char → Prop) (t : ParseTree) : Prop where
  derivation : t.IsDerivation scriptTables
  gaps : t.AllGaps P

theorem IsPlain.of_node {p : Production} {parts : List ParseTree} {start stop : Nat} {weight : Int}
    (h : IsPlain P (node p parts start stop weight)) :
    p ∈ scriptTables.productions ∧ Matches p.steps.toList parts ∧ ∀ t ∈ parts, t.IsPlain P := by
  obtain ⟨derivation, gaps⟩ := h
  cases gaps with
  | node _ _ _ gaps =>
    have matching := Matches.of_node derivation
    rw [solid_eq_self gaps] at matching
    exact ⟨derivation.mem_productions, matching, fun t ht => ⟨matching.derivation t ht, gaps t ht⟩⟩

end ParseTree

def placed (place : Option Part) (parts : List (Option Part × Outline)) : List (Option Part × Outline) :=
  parts.map fun part => (place <|> part.1, part.2)

def Token.parts (t : Token) (name : Option Kind) (place : Option Part) (piece : ParseTree) :
    List (Option Part × Outline) :=
  match name with
  | some k => [(place, .phrase k piece [])]
  | none => match t with
    | .word => [(place, .phrase .variable piece [])]
    | .number => [(place, .atom (String.ofList piece.text))]
    | .text s => if valueWords.contains s || place.isSome then [(place, .atom s)] else []
    | _ => []

/-- A rule admits a text, and certain parts are shown of it, renamed and placed from outside. -/
def Rule.Shows (P : List Char → Prop) :
    Rule → Option Kind → Option Part → List Char → List (Option Part × Outline) → Prop
  | nothing, _, _, cs, parts => cs = [] ∧ parts = []
  | token t, name, place, cs, parts => ∃ gap text start stop, P gap ∧ t.Spells text ∧ cs = gap ++ text ∧
      parts = t.parts name place (.leaf (numbering.token t) gap text start stop false)
  | phrase k, name, place, cs, parts => ∃ t : ParseTree, t.IsPlain P ∧ t.symbol = .phrase k.ctorIdx ∧
      cs = t.spacedText ∧
      parts = placed place (t.outlines scriptTables
        (some { symbol := t.symbol, renamed := name, part := place }))
  | both a b, name, place, cs, parts => ∃ cs₁ cs₂ parts₁ parts₂, a.Shows P name place cs₁ parts₁ ∧
      b.Shows P name place cs₂ parts₂ ∧ cs = cs₁ ++ cs₂ ∧ parts = parts₁ ++ parts₂
  | either a b, name, place, cs, parts => a.Shows P name place cs parts ∨ b.Shows P name place cs parts
  | oneOrMore r, name, place, cs, parts => name = none ∧
      ∃ items : List (List Char × List (Option Part × Outline)), items ≠ [] ∧
        (∀ i ∈ items, r.Shows P none none i.1 i.2) ∧ cs = items.flatMap Prod.fst ∧
        parts = placed place (items.flatMap Prod.snd)
  | ranked _ _ r, name, place, cs, parts | weighted _ r, name, place, cs, parts =>
    r.Shows P name place cs parts
  | renamed k r, _, place, cs, parts => r.Shows P (some k) place cs parts
  | part p r, name, _, cs, parts => r.Shows P name (some p) cs parts

variable {P : List Char → Prop} {name : Option Kind} {place : Option Part}

theorem placed_none (parts : List (Option Part × Outline)) : placed none parts = parts := by
  simp [placed]

theorem partOutlines_singleton {t : ParseTree} (solid : t.isComment = false) (step : Step) :
    partOutlines scriptTables [step] [t] = placed step.part (t.outlines scriptTables (some step)) := by
  rw [partOutlines_cons _ _ _ solid]
  simp [partOutlines, placed]

theorem placed_outlines_leaf {token : Token} (known : token ∈ numbering.tokens) (gap text : List Char)
    (start stop : Nat) (symbol : Symbol) :
    placed place ((ParseTree.leaf (numbering.token token) gap text start stop false).outlines scriptTables
        (some { symbol := symbol, renamed := name, part := place })) =
      token.parts name place (.leaf (numbering.token token) gap text start stop false) := by
  rw [outlines, getD_tokens known]
  cases name with
  | some k => simp [placed, Token.parts]
  | none =>
    simp only [Option.bind_some, Token.parts]
    cases token with
    | text s =>
      dsimp only
      split <;> simp [placed]
    | word | number => simp [placed, ParseTree.text]
    | _ => rfl

theorem exists_items_of_run {item : Rule} (run : item ∈ numbering.runs)
    (each : ∀ s ∈ item.expand numbering, ∀ ts, Matches s.steps ts → (∀ t ∈ ts, t.IsPlain P) →
      item.Shows P none none (spacedTextAll ts) (partOutlines scriptTables s.steps ts))
    {t : ParseTree} (derivation : t.IsDerivation scriptTables) (gaps : t.AllGaps P)
    (symbol : t.symbol = .phrase (numbering.run item)) :
    ∃ items : List (List Char × List (Option Part × Outline)), items ≠ [] ∧
      (∀ i ∈ items, item.Shows P none none i.1 i.2) ∧ t.spacedText = items.flatMap Prod.fst ∧
        ∀ step : Step, step.renamed = none →
          t.outlines scriptTables (some step) = items.flatMap Prod.snd := by
  induction derivation with
  | leaf => cases symbol
  | @node p parts start stop weight member symbols below ih =>
    have head : p.head = numbering.run item := Symbol.phrase.inj symbol
    obtain ⟨-, matching, plain⟩ := IsPlain.of_node ⟨.node member symbols below, gaps⟩
    rcases (origin_of_mem_productions member).of_run kinds_numbering run head with steps | ⟨s, hs, steps⟩
    · -- a longer run consists of two shorter ones
      rw [steps] at matching
      obtain ⟨t, us, rfl, begins, solid, second⟩ := matching.cons
      obtain ⟨t', rfl, ends, -, solid'⟩ := second.single
      obtain ⟨first, last⟩ : t.IsPlain P ∧ t'.IsPlain P := by simpa using plain
      obtain ⟨items, ne_nil, all, text, parts⟩ := ih t (by simp) first.gaps begins
      obtain ⟨items', -, all', text', parts'⟩ := ih t' (by simp) last.gaps ends
      refine ⟨items ++ items', by simp [ne_nil], List.forall_mem_append.2 ⟨all, all'⟩, ?_, fun step renamed => ?_⟩
      · simp [spacedText, spacedTextAll, text, text']
      · rw [outlines_of_run renamed head, steps, partOutlines_cons _ _ _ solid, partOutlines_singleton solid',
          parts _ rfl, parts' _ rfl]
        simp [placed]
    · rw [steps] at matching
      refine ⟨[(spacedTextAll parts, partOutlines scriptTables s.steps parts)], by simp, ?_, ?_, fun step renamed => ?_⟩
      · simpa using each s hs parts matching plain
      · simp [spacedText]
      · rw [outlines_of_run renamed head, steps]
        simp

theorem shows_token {token : Token} (known : token ∈ numbering.tokens) {step : Step} {t : ParseTree}
    (meets : step.Meets name place (.token (numbering.token token)) t) (gaps : t.AllGaps P) :
    (Rule.token token).Shows P name place t.spacedText (partOutlines scriptTables [step] [t]) := by
  obtain ⟨renamed, rfl, symbol, derivation, solid⟩ := meets
  cases gaps with
  | node => cases symbol
  | @leaf gap holds n text start stop =>
    obtain rfl : n = numbering.token token := Symbol.token.inj symbol
    cases derivation with
    | leaf spelled =>
      have spells := (Tables.spells_iff (getD_tokens known)).1 spelled
      refine ⟨gap, text, start, stop, holds, spells, rfl, ?_⟩
      rw [partOutlines_singleton rfl, ← placed_outlines_leaf known gap text start stop step.symbol]
      refine congrArg (placed step.part) (outlines_congr scriptTables ?_ ?_ _)
      · exact renamed
      · rfl

/-- Trees that a rule admits have a text that the rule admits, and the parts for it. -/
theorem shows_of_admits {r : Rule} (known : r.IsKnown) (well : r.isWellRenamed name) {steps : List Step}
    {ts : List ParseTree} (admits : r.Admits name place steps ts) (plain : ∀ t ∈ ts, t.IsPlain P) :
    r.Shows P name place (spacedTextAll ts) (partOutlines scriptTables steps ts) := by
  induction admits with
  | nothing => exact ⟨rfl, by simp [partOutlines]⟩
  | @token token _ _ _ t meets =>
    have gaps := (plain t (List.mem_singleton_self t)).gaps
    simpa [spacedTextAll] using shows_token (known.tokens token (List.mem_singleton_self _)) meets gaps
  | @phrase _ _ _ _ t meets =>
    obtain ⟨renamed, rfl, symbol, -, solid⟩ := meets
    refine ⟨t, plain t (List.mem_singleton_self t), symbol, by simp [spacedTextAll], ?_⟩
    rw [partOutlines_singleton solid]
    refine congrArg (placed _) (outlines_congr scriptTables ?_ ?_ t)
    · exact renamed
    · rfl
  | both first _ iha ihb =>
    obtain ⟨known, known'⟩ := Rule.IsKnown.both_iff.1 known
    obtain ⟨wella, wellb⟩ := Bool.and_eq_true_iff.1 well
    obtain ⟨plain, plain'⟩ := List.forall_mem_append.1 plain
    exact ⟨_, _, _, _, iha known wella plain, ihb known' wellb plain', spacedTextAll_append ..,
      partOutlines_append _ first.solid⟩
  | left _ ih =>
    obtain ⟨known, -⟩ := Rule.IsKnown.both_iff.1 ⟨known.tokens, known.runs⟩
    exact .inl (ih known (Bool.and_eq_true_iff.1 well).1 plain)
  | right _ ih =>
    obtain ⟨-, known⟩ := Rule.IsKnown.both_iff.1 ⟨known.tokens, known.runs⟩
    exact .inr (ih known (Bool.and_eq_true_iff.1 well).2 plain)
  | @run _ name _ _ t meets _ ih =>
    obtain ⟨known, run⟩ := known.repeated
    obtain ⟨renamed, rfl, symbol, derivation, solid⟩ := meets
    cases name with
    | some k => cases well
    | none =>
      have gaps := (plain t (List.mem_singleton_self t)).gaps
      obtain ⟨items, ne_nil, all, text, parts⟩ := exists_items_of_run run
        (fun s hs ts matching => ih s hs ts matching known well) derivation gaps symbol
      refine ⟨rfl, items, ne_nil, all, by simp [spacedTextAll, text], ?_⟩
      rw [partOutlines_singleton solid, parts _ renamed]
  | ranked _ ih | weighted _ ih | renamed _ ih | part _ ih =>
    exact ih ⟨known.tokens, known.runs⟩ well plain

/-- What is shown inside a phrase, and its text, follow from the rule of its kind. -/
theorem ParseTree.IsPlain.shows {t : ParseTree} (plain : t.IsPlain P) {k : Kind} {r : Rule}
    (rule : rule? k = some r) (symbol : t.symbol = .phrase k.ctorIdx) :
    r.Shows P none none t.spacedText t.inner := by
  cases t with
  | leaf => cases symbol
  | node p parts start stop weight =>
    obtain ⟨member, matching, below⟩ := IsPlain.of_node plain
    obtain ⟨s, hs, steps⟩ := exists_sequence_of_rule? rule member (Symbol.phrase.inj symbol)
    have known := mem_orderedRules_of_rule? rule
    rw [steps] at matching
    rw [spacedText, inner, steps]
    exact shows_of_admits (isKnown_of_mem known) (isWellRenamed_of_mem known)
      (Rule.admits_self hs matching) below

theorem outlines_of_kind {t : ParseTree} {k : Kind} {r : Rule} (rule : rule? k = some r)
    (symbol : t.symbol = .phrase k.ctorIdx) {step : Step} (renamed : step.renamed = none)
    (shown : k.isHidden = false) : t.outlines scriptTables (some step) = [(none, .phrase k t t.inner)] := by
  cases t with
  | leaf => cases symbol
  | node p parts start stop weight =>
    have head : p.head = k.ctorIdx := Symbol.phrase.inj symbol
    exact outlines_of_kindOf _ (by rw [kindOf_of_renamed_none _ renamed, head, getElem?_kinds rule]; simp [shown])

theorem outlines_of_isHidden {t : ParseTree} {k : Kind} {r : Rule} (rule : rule? k = some r)
    (symbol : t.symbol = .phrase k.ctorIdx) {step : Step} (renamed : step.renamed = none)
    (hidden : k.isHidden = true) : t.outlines scriptTables (some step) = t.inner := by
  cases t with
  | leaf => cases symbol
  | node p parts start stop weight =>
    have head : p.head = k.ctorIdx := Symbol.phrase.inj symbol
    exact outlines_of_kindOf_none _
      (by rw [kindOf_of_renamed_none _ renamed, head, getElem?_kinds rule]; simp [hidden])

end PugComponents.Script

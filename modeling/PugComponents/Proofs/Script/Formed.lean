import PugComponents.Proofs.Script.Shown

/-! From texts to trees. Whatever a rule says can be shown of a text is shown of a tree of that text. So the
relation between rules, texts and parts neither adds a phrase nor leaves one out, and a tree for a text is
found by going through the rules alone, without productions and numbers. -/

namespace PugComponents.Script

open ParseTree Grammar

variable {P : List Char → Prop} {cs cs' : List Char} {parts parts' : List (Option Part × Outline)}
  {name : Option Kind} {place : Option Part} {k : Kind} {r : Rule}

/-- Trees for the steps of a sequence, with their text and with what is shown of them in a certain view. -/
structure Stand (P : List Char → Prop) (steps : List Step) (view : Step → Step) (ts : List ParseTree)
    (cs : List Char) (parts : List (Option Part × Outline)) : Prop where
  symbols : ts.map symbol = steps.map Step.symbol
  plain : ∀ t ∈ ts, t.IsPlain P
  text : spacedTextAll ts = cs
  shown : partOutlines scriptTables (steps.map view) ts = parts

namespace Stand

variable {steps steps' : List Step} {view f : Step → Step} {ts ts' : List ParseTree}

theorem solid (h : Stand P steps view ts cs parts) :
    List.Forall₂ (fun _ t => t.isComment = false) (steps.map view) ts := by
  have length : (steps.map view).length = ts.length := by simpa using (congrArg List.length h.symbols).symm
  exact List.forall₂_iff_zip.2 ⟨length, fun pair => (h.plain _ (List.of_mem_zip pair).2).gaps.isComment⟩

theorem append (first : Stand P steps view ts cs parts) (second : Stand P steps' view ts' cs' parts') :
    Stand P (steps ++ steps') view (ts ++ ts') (cs ++ cs') (parts ++ parts') where
  symbols := by rw [List.map_append, List.map_append, first.symbols, second.symbols]
  plain := List.forall_mem_append.2 ⟨first.plain, second.plain⟩
  text := by rw [spacedTextAll_append, first.text, second.text]
  shown := by rw [List.map_append, partOutlines_append _ first.solid, first.shown, second.shown]

theorem single {step : Step} {t : ParseTree} (plain : t.IsPlain P) (symbol : t.symbol = step.symbol)
    (renamed : (view step).renamed = name) (part : (view step).part = place) :
    Stand P [step] view [t] t.spacedText
      (placed place
        (t.outlines scriptTables (some { symbol := t.symbol, renamed := name, part := place }))) where
  symbols := congrArg ([·]) symbol
  plain := List.forall_mem_singleton.2 plain
  text := by simp [spacedTextAll]
  shown := by
    rw [List.map_singleton, partOutlines_singleton plain.gaps.isComment, part]
    refine congrArg (placed place) (outlines_congr scriptTables ?_ ?_ t)
    · exact renamed
    · exact part

theorem of_view (symbol : ∀ step, (f step).symbol = step.symbol)
    (h : Stand P steps (fun step => view (f step)) ts cs parts) : Stand P (steps.map f) view ts cs parts where
  symbols := by
    rw [List.map_map, h.symbols]
    exact List.map_congr_left fun step _ => (symbol step).symm
  plain := h.plain
  text := h.text
  shown := by
    rw [List.map_map]
    exact h.shown

theorem isPlain {s : Sequence} (h : Stand P s.steps view ts cs parts) {head : Nat}
    (member : ⟨head, s.steps.toArray, s.weight⟩ ∈ scriptTables.productions) :
    (node ⟨head, s.steps.toArray, s.weight⟩ ts 0 0 0).IsPlain P where
  derivation := .node member (by rw [solid_eq_self fun t ht => (h.plain t ht).gaps, h.symbols])
    fun t ht => (h.plain t ht).derivation
  gaps := .node _ _ _ fun t ht => (h.plain t ht).gaps

end Stand

namespace Grammar

theorem solid_repeated : ∀ kr ∈ rules, ∀ item ∈ kr.2.repeated, item.isNullable = false := by decide +kernel

theorem isNullable_of_mem_runs {item : Rule} (run : item ∈ numbering.runs) : item.isNullable = false := by
  rw [numbering_eq] at run
  obtain ⟨r, hr, repeated⟩ := Numbering.exists_of_mem_runs_ofRules run
  obtain ⟨⟨k, r⟩, member, rfl⟩ := List.mem_map.1 hr
  obtain ⟨i, -, found⟩ := List.mem_filterMap.1 member
  exact solid_repeated _ (List.mem_of_find?_eq_some found) item repeated

theorem mem_productions_of_rule? (rule : rule? k = some r) {s : Sequence} (member : s ∈ r.expand numbering)
    (steps : s.steps ≠ []) : ⟨k.ctorIdx, s.steps.toArray, s.weight⟩ ∈ scriptTables.productions := by
  have kind : (orderedRules.map Prod.snd)[k.ctorIdx]? = some r := by
    rw [List.getElem?_map, getElem?_orderedRules rule, Option.map_some]
  rw [numbering_eq] at member
  exact List.mem_toArray.2 (Production.mem_all_of_rule kind member steps)

theorem mem_productions_of_run {item : Rule} (run : item ∈ numbering.runs) {s : Sequence}
    (member : s ∈ ⟨[{ symbol := .phrase (numbering.run item) },
      { symbol := .phrase (numbering.run item) }], 0⟩ ::
      item.expand numbering)
    (steps : s.steps ≠ []) : ⟨numbering.run item, s.steps.toArray, s.weight⟩ ∈ scriptTables.productions := by
  rw [numbering_eq] at run member ⊢
  exact List.mem_toArray.2 (Production.mem_all_of_run run member steps)

end Grammar

section Runs

variable {item : Rule} {items : List (List Char × List (Option Part × Outline))}

def HasRun (P : List Char → Prop) (item : Rule) (cs : List Char)
    (parts : List (Option Part × Outline)) : Prop :=
  ∃ t : ParseTree, t.IsPlain P ∧ t.symbol = .phrase (numbering.run item) ∧ t.spacedText = cs ∧
    ∀ step : Step, step.renamed = none → t.outlines scriptTables (some step) = parts

theorem hasRun_of_stand (run : item ∈ numbering.runs) {s : Sequence} (member : s ∈ item.expand numbering)
    {ts : List ParseTree} (stand : Stand P s.steps id ts cs parts) : HasRun P item cs parts := by
  have steps : s.steps ≠ [] := Rule.steps_ne_nil (isNullable_of_mem_runs run) member
  refine ⟨_, stand.isPlain (mem_productions_of_run run (List.mem_cons_of_mem _ member) steps), rfl, ?_,
    fun step renamed => ?_⟩
  · rw [spacedText, stand.text]
  · rw [outlines_of_run renamed rfl]
    simpa using stand.shown

theorem HasRun.append (run : item ∈ numbering.runs) (first : HasRun P item cs parts)
    (second : HasRun P item cs' parts') : HasRun P item (cs ++ cs') (parts ++ parts') := by
  obtain ⟨t, plain, symbol, rfl, shown⟩ := first
  obtain ⟨t', plain', symbol', rfl, shown'⟩ := second
  have one {t : ParseTree} (plain : t.IsPlain P) (symbol : t.symbol = .phrase (numbering.run item)) :
      Stand P [{ symbol := .phrase (numbering.run item) }] id [t] t.spacedText
        (placed none (t.outlines scriptTables (some { symbol := t.symbol }))) := .single plain symbol rfl rfl
  have both := (one plain symbol).append (one plain' symbol')
  have inner := both.shown
  rw [shown _ rfl, shown' _ rfl, placed_none, placed_none] at inner
  refine ⟨_, both.isPlain (s := ⟨_, 0⟩) (mem_productions_of_run run List.mem_cons_self (by simp)), rfl, ?_,
    fun step renamed => ?_⟩
  · rw [spacedText, both.text]
  · rw [outlines_of_run renamed rfl]
    simpa using inner

theorem hasRun_of_items (run : item ∈ numbering.runs) (ne_nil : items ≠ [])
    (each : ∀ i ∈ items, HasRun P item i.1 i.2) :
    HasRun P item (items.flatMap Prod.fst) (items.flatMap Prod.snd) := by
  induction items with
  | nil => exact absurd rfl ne_nil
  | cons i items ih =>
    obtain ⟨first, others⟩ := List.forall_mem_cons.1 each
    cases items with
    | nil => simpa using first
    | cons j items => exact first.append run (ih (List.cons_ne_nil _ _) others)

end Runs

/-- What a rule shows of a text, trees for one of its sequences show. What the rules around a rule say of its
steps is in the view. -/
theorem exists_stand_of_shows {r : Rule} (known : r.IsKnown) (shows' : r.Shows P name place cs parts)
    (view : Step → Step) (renamed : ∀ step, (view step).renamed = (step.renamed <|> name))
    (part : ∀ step, (view step).part = (step.part <|> place)) :
    ∃ s ∈ r.expand numbering, ∃ ts, Stand P s.steps view ts cs parts := by
  induction r generalizing cs parts name place view with
  | nothing =>
    obtain ⟨rfl, rfl⟩ := shows'
    exact ⟨_, List.mem_singleton_self _, [], rfl, by simp, rfl, by simp [partOutlines]⟩
  | token token =>
    obtain ⟨gap, text, start, stop, holds, spells, rfl, rfl⟩ := shows'
    have listed : token ∈ numbering.tokens := known.tokens token (List.mem_singleton_self _)
    have plain : (leaf (numbering.token token) gap text start stop false).IsPlain P :=
      ⟨.leaf ((Tables.spells_iff (getD_tokens listed)).2 spells) .., .leaf holds ..⟩
    rw [← placed_outlines_leaf listed gap text start stop (.token (numbering.token token))]
    exact ⟨_, List.mem_singleton_self _, [_], .single plain rfl (renamed _) (part _)⟩
  | phrase k =>
    obtain ⟨t, plain, symbol, rfl, rfl⟩ := shows'
    exact ⟨_, List.mem_singleton_self _, [t], .single plain symbol (renamed _) (part _)⟩
  | both a b iha ihb =>
    obtain ⟨knowna, knownb⟩ := Rule.IsKnown.both_iff.1 known
    obtain ⟨cs₁, cs₂, parts₁, parts₂, first, second, rfl, rfl⟩ := shows'
    obtain ⟨s, member, ts, stand⟩ := iha knowna first view renamed part
    obtain ⟨s', member', ts', stand'⟩ := ihb knownb second view renamed part
    exact ⟨s.append s', List.mem_flatMap.2 ⟨s, member, List.mem_map.2 ⟨s', member', rfl⟩⟩, ts ++ ts',
      stand.append stand'⟩
  | either a b iha ihb =>
    obtain ⟨knowna, knownb⟩ := Rule.IsKnown.both_iff.1 ⟨known.tokens, known.runs⟩
    rcases shows' with first | second
    · obtain ⟨s, member, stand⟩ := iha knowna first view renamed part
      exact ⟨s, List.mem_eraseDups.2 (List.mem_append_left _ member), stand⟩
    · obtain ⟨s, member, stand⟩ := ihb knownb second view renamed part
      exact ⟨s, List.mem_eraseDups.2 (List.mem_append_right _ member), stand⟩
  | oneOrMore r ih =>
    obtain ⟨known, run⟩ := known.repeated
    obtain ⟨rfl, items, ne_nil, each, rfl, rfl⟩ := shows'
    have runs : ∀ i ∈ items, HasRun P r i.1 i.2 := fun i hi => by
      obtain ⟨s, member, ts, stand⟩ := ih known (each i hi) id (fun step => by simp) fun step => by simp
      exact hasRun_of_stand run member stand
    obtain ⟨t, plain, symbol, text, shown⟩ := hasRun_of_items run ne_nil runs
    refine ⟨_, List.mem_singleton_self _, [t], ?_⟩
    rw [← text, ← shown { symbol := t.symbol, renamed := none, part := place } rfl]
    exact .single plain symbol (renamed _) (part _)
  -- An inner step is viewed as it will be once the rule has put its rank on it.
  | ranked rank side r ih =>
    obtain ⟨s, member, ts, stand⟩ := ih ⟨known.tokens, known.runs⟩ shows' (fun step =>
      view { step with rank := step.rank <|> some rank, side := step.side <|> side }) (fun _ => renamed _)
      fun _ => part _
    exact ⟨_, List.mem_map.2 ⟨s, member, rfl⟩, ts, stand.of_view fun _ => rfl⟩
  | weighted w r ih =>
    obtain ⟨s, member, ts, stand⟩ := ih ⟨known.tokens, known.runs⟩ shows' view renamed part
    exact ⟨_, List.mem_map.2 ⟨s, member, rfl⟩, ts, stand⟩
  | renamed k r ih =>
    obtain ⟨s, member, ts, stand⟩ := ih ⟨known.tokens, known.runs⟩ shows' (fun step =>
      view { step with renamed := step.renamed <|> some k })
      (fun step => by rw [renamed]; cases step.renamed <;> rfl) fun _ => part _
    exact ⟨_, List.mem_map.2 ⟨s, member, rfl⟩, ts, stand.of_view fun _ => rfl⟩
  | part p r ih =>
    obtain ⟨s, member, ts, stand⟩ := ih ⟨known.tokens, known.runs⟩ shows' (fun step =>
      view { step with part := step.part <|> some p }) (fun _ => renamed _)
      fun step => by rw [part]; cases step.part <;> rfl
    exact ⟨_, List.mem_map.2 ⟨s, member, rfl⟩, ts, stand.of_view fun _ => rfl⟩

/-- A rule shows the parts of a text exactly if a phrase of its kind has that text and those parts. -/
theorem shows_iff_exists_tree (rule : rule? k = some r) (ne_nil : cs ≠ []) : r.Shows P none none cs parts ↔
    ∃ t : ParseTree, t.IsPlain P ∧ t.symbol = .phrase k.ctorIdx ∧ t.spacedText = cs ∧ t.inner = parts := by
  constructor
  · intro shows'
    obtain ⟨s, member, ts, stand⟩ := exists_stand_of_shows
      (isKnown_of_mem (mem_orderedRules_of_rule? rule)) shows'
      id (fun step => by simp) fun step => by simp
    have steps : s.steps ≠ [] := by
      intro empty
      have none : ts = [] := by simpa [empty] using stand.symbols
      exact ne_nil (by simpa [none, spacedTextAll] using stand.text.symm)
    refine ⟨_, stand.isPlain (mem_productions_of_rule? rule member steps), rfl, ?_, ?_⟩
    · rw [spacedText, stand.text]
    · simpa [ParseTree.inner] using stand.shown
  · rintro ⟨t, plain, symbol, rfl, rfl⟩
    exact plain.shows rule symbol

section Building

def AreSpaces (gap : List Char) : Prop := ∀ c ∈ gap, isSpace c = true

theorem areSpaces_nil : AreSpaces "".toList := List.all_eq_true.1 (by decide)

theorem areSpaces_space : AreSpaces " ".toList := List.all_eq_true.1 (by decide)

def piece (t : Token) (gap text : String) : ParseTree :=
  .leaf (numbering.token t) gap.toList text.toList 0 0 false

theorem shows_piece {t : Token} (gap text : String) (holds : P gap.toList) (spells : t.Spells text.toList) :
    (Rule.token t).Shows P name place (gap.toList ++ text.toList) (t.parts name place (piece t gap text)) :=
  ⟨_, _, 0, 0, holds, spells, rfl, rfl⟩

theorem Rule.Shows.append {a b : Rule} (first : a.Shows P name place cs parts)
    (second : b.Shows P name place cs' parts') :
    (Rule.both a b).Shows P name place (cs ++ cs') (parts ++ parts') :=
  ⟨_, _, _, _, first, second, rfl, rfl⟩

theorem shows_oneOf : ∀ {rs : List Rule}, r ∈ rs → r.Shows P name place cs parts →
    (oneOf rs).Shows P name place cs parts
  | [_], member, shows' => List.mem_singleton.1 member ▸ shows'
  | _ :: _ :: _, member, shows' => by
    rcases List.mem_cons.1 member with rfl | member
    · exact .inl shows'
    · exact .inr (shows_oneOf member shows')

theorem shows_optional_nil (r : Rule) : (optional r).Shows P name place [] [] := .inr ⟨rfl, rfl⟩

theorem Rule.Shows.skip {b : Rule} (shows' : b.Shows P name place cs parts) :
    (Rule.both (optional r) b).Shows P name place cs parts := (shows_optional_nil r).append shows'

theorem Rule.Shows.last {a : Rule} (shows' : a.Shows P name place cs parts) :
    (Rule.both a (optional r)).Shows P name place cs parts := by
  simpa using shows'.append (shows_optional_nil r)

theorem shows_once (shows' : r.Shows P none none cs parts) : (zeroOrMore r).Shows P none none cs parts :=
  .inl ⟨rfl, [(cs, parts)], by simp, by simpa using shows', by simp, by simp [placed]⟩

theorem shows_twice (first : r.Shows P none none cs parts) (second : r.Shows P none none cs' parts') :
    (zeroOrMore r).Shows P none none (cs ++ cs') (parts ++ parts') :=
  .inl ⟨rfl, [(cs, parts), (cs', parts')], by simp, by simpa using ⟨first, second⟩, by simp, by simp [placed]⟩

theorem exists_phrase_of_shows (place : Option Part) (rule : rule? k = some r)
    (shown : k.isHidden = false) (ne_nil : cs ≠ [])
    (inside : r.Shows P none none cs parts) :
    ∃ t : ParseTree, t.IsPlain P ∧ t.spacedText = cs ∧
      (Rule.phrase k).Shows P none place cs [(place, .phrase k t parts)] := by
  obtain ⟨t, plain, symbol, rfl, rfl⟩ := (shows_iff_exists_tree rule ne_nil).1 inside
  refine ⟨t, plain, rfl, t, plain, symbol, rfl, ?_⟩
  rw [outlines_of_kind rule symbol rfl shown]
  cases place <;> rfl

theorem shows_group (rule : rule? k = some r) (hidden : k.isHidden = true) (ne_nil : cs ≠ [])
    (inside : r.Shows P none none cs parts) : (Rule.phrase k).Shows P none place cs (placed place parts) := by
  obtain ⟨t, plain, symbol, rfl, rfl⟩ := (shows_iff_exists_tree rule ne_nil).1 inside
  exact ⟨t, plain, symbol, rfl, by rw [outlines_of_isHidden rule symbol rfl hidden]⟩

theorem shows_expression (rule : rule? .primaryExpression = some r) (ne_nil : cs ≠ [])
    (inside : r.Shows P none none cs parts) :
    (Rule.phrase .expression).Shows P none place cs (placed place parts) := by
  have primary : (Rule.phrase .primaryExpression).Shows P none none cs parts := by
    rw [← placed_none parts]
    exact shows_group rule rfl ne_nil inside
  exact shows_group rfl rfl ne_nil (shows_oneOf (r := Kind.primaryExpression) (by decide) primary)

theorem shows_variable (place : Option Part) (gap text : String) (holds : P gap.toList)
    (spells : Token.word.Spells text.toList) (ne_nil : gap.toList ++ text.toList ≠ []) :
    (Rule.phrase .expression).Shows P none place (gap.toList ++ text.toList)
      (placed place [(none, .phrase .variable (piece .word gap text) [])]) :=
  shows_expression rfl ne_nil (shows_oneOf (r := Token.word) (by decide) (shows_piece gap text holds spells))

end Building

end PugComponents.Script

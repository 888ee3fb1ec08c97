import PugComponents.Proofs.Script.Formed
import PugComponents.Proofs.Script.Patterns

/-! An object pattern is read alike from its tree and from its text. The text between the braces is cut at
its commas; if no entry has a comma of its own, then the pieces are the entries of the tree, in order, and
perhaps empty ones at the end or where something was left out. -/

namespace PugComponents.Script

open Grammar ParseTree Text

namespace TextScan

def bodyNames (body : List Char) : List String × List String :=
  (((splitAll ',' body).map entryNames).flatMap Prod.fst,
    ((splitAll ',' body).map entryNames).flatMap Prod.snd)

variable {entry gap : List Char}

theorem bodyNames_of_not_mem (free : ',' ∉ entry) : bodyNames entry = entryNames entry := by
  simp [bodyNames, splitAll_of_not_mem free]

theorem bodyNames_cons (free : ',' ∉ entry) (body : List Char) : bodyNames (entry ++ ',' :: body) =
    ((entryNames entry).1 ++ (bodyNames body).1, (entryNames entry).2 ++ (bodyNames body).2) := by
  simp [bodyNames, splitAll_append free]

section Declarations

variable {before : Option Char} {cs body rest : List Char} {source : String}

/-- A declaration that takes a value apart: the keyword, the text between braces, and a name that is not longer
than it should be. -/
def TakesApart (before : Option Char) (cs body : List Char) (source : String) (rest : List Char) : Prop :=
  ∃ gap₁ gap₂ gap₃, IsGap gap₁ ∧ IsGap gap₂ ∧ IsGap gap₃ ∧ (∀ c ∈ rest.head?, isFurther c = false) ∧
    declarationKeyword before cs =
      some ((), gap₁ ++ '\x7b' :: (body ++ '\x7d' :: (gap₂ ++ '=' :: (gap₃ ++ (source.toList ++ rest)))))

theorem destructuring_of_takesApart (h : TakesApart before cs body source rest)
    (isSource : source ∈ ["$props", "$attrs"]) (closed : '\x7d' ∉ body) :
    destructuring before cs = some (⟨source, (bodyNames body).1, (bodyNames body).2⟩, rest) := by
  obtain ⟨gap₁, gap₂, gap₃, blank₁, blank₂, blank₃, stops, keyword⟩ := h
  have passes : ∀ c ∈ body, (c != '\x7d') = true := fun c hc => bne_iff_ne.2 fun same => closed (same ▸ hc)
  have named : source = "$props" ∨ source = "$attrs" := by simpa using isSource
  have solid : ∀ c ∈ (source.toList ++ rest).head?, isBlank c = false := by
    rcases named with rfl | rfl
    all_goals
      intro c first
      obtain rfl : '$' = c := Option.some.inj first
      decide
  unfold destructuring
  refine bind_eq_some.2 ⟨(), _, keyword, ?_⟩
  refine bind_eq_some.2 ⟨gap₁, _, takeAll_eq_some.2 ⟨rfl, blank₁, by simp; decide⟩, ?_⟩
  refine bind_eq_some.2 ⟨(), _, exactly_eq_some.2 rfl, ?_⟩
  refine bind_eq_some.2 ⟨body, _, takeAll_eq_some.2 ⟨rfl, passes, by simp⟩, ?_⟩
  refine bind_eq_some.2 ⟨(), _, exactly_eq_some.2 rfl, ?_⟩
  refine bind_eq_some.2 ⟨gap₂, _, takeAll_eq_some.2 ⟨rfl, blank₂, by simp; decide⟩, ?_⟩
  refine bind_eq_some.2 ⟨(), _, exactly_eq_some.2 rfl, ?_⟩
  refine bind_eq_some.2 ⟨gap₃, _, takeAll_eq_some.2 ⟨rfl, blank₃, solid⟩, ?_⟩
  have ends : notNext isFurther rest = some ((), rest) := notNext_eq_some.2 ⟨rfl, stops⟩
  rcases named with rfl | rfl
  · refine bind_eq_some.2 ⟨true, rest, rfl, ?_⟩
    rw [if_pos rfl]
    refine bind_eq_some.2 ⟨"$props", rest, rfl, ?_⟩
    exact bind_eq_some.2 ⟨(), rest, ends, rfl⟩
  · refine bind_eq_some.2 ⟨false, _, rfl, ?_⟩
    rw [if_neg Bool.false_ne_true]
    refine bind_eq_some.2 ⟨(), rest, rfl, ?_⟩
    refine bind_eq_some.2 ⟨"$attrs", rest, rfl, ?_⟩
    exact bind_eq_some.2 ⟨(), rest, ends, rfl⟩

end Declarations

end TextScan

def shownNames (parts : List (Option Part × Outline)) : List String × List String :=
  (parts.flatMap fun part => part.2.toPhrase.entryNames.1,
    parts.flatMap fun part => part.2.toPhrase.entryNames.2)

theorem shownNames_append (parts parts' : List (Option Part × Outline)) : shownNames (parts ++ parts') =
    ((shownNames parts).1 ++ (shownNames parts').1, (shownNames parts).2 ++ (shownNames parts').2) := by
  simp [shownNames]

def ArePlain (parts : List (Option Part × Outline)) : Prop :=
  ∀ part ∈ parts, part.2.toPhrase.IsPlainEntry ∧ ',' ∉ part.2.text

section Items

def slot : Rule := optional (oneOf [.phrase .pairPattern, .phrase .restPattern,
    .phrase .objectAssignmentPattern,
  .renamed .shorthandTarget (oneOf [.token .word, reservedName])])

variable {cs gap : List Char} {parts : List (Option Part × Outline)}

theorem entryNames_of_slot (shows' : slot.Shows IsGap none none cs parts) (plain : ArePlain parts) :
    ',' ∉ cs ∧ ∀ gap, IsGap gap → TextScan.entryNames (cs ++ gap) = shownNames parts := by
  rcases shows' with entry | ⟨rfl, rfl⟩
  · obtain ⟨o, rfl, ⟨gap, blank, rfl⟩, agrees⟩ := exists_showsEntry entry
    obtain ⟨entry, free⟩ := plain _ (List.mem_singleton_self _)
    refine ⟨?_, fun gap' blank' => ?_⟩
    · simpa using ⟨not_mem_of_forall (by decide) blank, free⟩
    · rw [agrees entry gap' blank']
      simp [shownNames]
  · exact ⟨List.not_mem_nil, fun gap blank => TextScan.entryNames_of_isGap blank⟩

/-- What the text of a list of entries says is what is shown of them. By induction on the entries behind the
first one. -/
theorem bodyNames_of_items (blank : IsGap gap) (items : List (List Char × List (Option Part × Outline)))
    (each : ∀ i ∈ items, (seq [",", slot]).Shows IsGap none none i.1 i.2) :
    ∀ {cs parts}, slot.Shows IsGap none none cs parts → ArePlain (parts ++ items.flatMap Prod.snd) →
      TextScan.bodyNames (cs ++ (items.flatMap Prod.fst ++ gap)) = shownNames
        (parts ++ items.flatMap Prod.snd) := by
  induction items with
  | nil =>
    intro cs parts first plain
    rw [List.flatMap_nil, List.append_nil] at plain
    obtain ⟨free, names⟩ := entryNames_of_slot first plain
    have whole : ',' ∉ cs ++ gap := by simpa using ⟨free, not_mem_of_forall (by decide) blank⟩
    rw [List.flatMap_nil, List.nil_append, List.flatMap_nil, List.append_nil,
      TextScan.bodyNames_of_not_mem whole,
      names gap blank]
  | cons item items ih =>
    intro cs parts first plain
    obtain ⟨⟨_, next, _, behind, comma, second, text, shown⟩, each⟩ := List.forall_mem_cons.1 each
    obtain ⟨gap', blank', rfl, rfl⟩ := exists_gap_of_sign comma rfl
    have parts_eq : (item :: items).flatMap Prod.snd = behind ++ items.flatMap Prod.snd := by
      rw [List.flatMap_cons, shown, List.nil_append]
    rw [parts_eq] at plain ⊢
    obtain ⟨plain, plain'⟩ := List.forall_mem_append.1 plain
    obtain ⟨free, names⟩ := entryNames_of_slot first plain
    have whole : ',' ∉ cs ++ gap' := by simpa using ⟨free, not_mem_of_forall (by decide) blank'⟩
    have split : cs ++ ((item :: items).flatMap Prod.fst ++ gap) =
        (cs ++ gap') ++ ',' :: (next ++ (items.flatMap Prod.fst ++ gap)) := by
      simp [text]
    rw [split, TextScan.bodyNames_cons whole, names gap' blank', ih each second plain',
      shownNames_append parts]

theorem bodyNames_of_commas (blank : IsGap gap) (shows' : (commasOrNone slot).Shows IsGap none none cs parts)
    (plain : ArePlain parts) : TextScan.bodyNames (cs ++ gap) = shownNames parts := by
  rcases shows' with ⟨cs₁, _, parts₁, _, first, behind, rfl, rfl⟩ | ⟨rfl, rfl⟩
  · rcases behind with ⟨-, items, -, each, rfl, rfl⟩ | ⟨rfl, rfl⟩
    · rw [placed_none] at plain ⊢
      rw [List.append_assoc]
      exact bodyNames_of_items blank items each first plain
    · rw [List.append_nil] at plain ⊢
      have alone := bodyNames_of_items blank [] (by simp) first (by simpa using plain)
      simpa using alone
  · rw [List.nil_append, TextScan.bodyNames_of_not_mem (not_mem_of_forall (by decide) blank)]
    exact TextScan.entryNames_of_isGap blank

end Items

variable {t : ParseTree}

theorem exists_body_of_objectPattern (plain : t.IsPlain IsGap)
    (symbol : t.symbol = .phrase Kind.objectPattern.ctorIdx)
    (entries : ArePlain t.inner) : ∃ gap body, IsGap gap ∧
      t.spacedText = gap ++ '\x7b' :: (body ++ ['\x7d']) ∧
      TextScan.bodyNames body = shownNames t.inner := by
  obtain ⟨_, _, _, _, opening, ⟨list, _, between, _, commas, closing, rfl, rfl⟩, text, inner⟩ :=
    plain.shows (k := .objectPattern) rfl symbol
  obtain ⟨gap, blank, rfl, rfl⟩ := exists_gap_of_sign opening rfl
  obtain ⟨gap', blank', rfl, rfl⟩ := exists_gap_of_sign closing rfl
  rw [List.nil_append, List.append_nil] at inner
  rw [inner] at entries ⊢
  refine ⟨gap, list ++ gap', blank, ?_, bodyNames_of_commas blank' commas entries⟩
  rw [text]
  simp

theorem phrases_of_objectPattern (symbol : t.symbol = .phrase Kind.objectPattern.ctorIdx) {step : Step}
    (renamed : step.renamed = none) : t.phrases scriptTables (some step) =
      [(none, .objectPattern (t.inner.map fun part => part.2.toPhrase))] := by
  rw [phrases_eq, outlines_of_kind (k := .objectPattern) rfl symbol renamed rfl]
  simp [Outline.toPlaced, Outline.toPhrase, Kind.phrase, Function.comp_def]

/-- The tree of an object pattern whose entries bind plain names and the text between its braces give the same
keys and the same bindings, in the same order. So does the text of a whole declaration in which the pattern
takes `$props` or `$attrs` apart, unless a brace inside ends the search for the closing one. -/
theorem destructuring_of_objectPattern (plain : t.IsPlain IsGap)
    (symbol : t.symbol = .phrase Kind.objectPattern.ctorIdx) (entries : ArePlain t.inner) :
    ∃ phrases gap body, (∀ step : Step, step.renamed = none →
        t.phrases scriptTables (some step) = [(none, .objectPattern phrases)]) ∧
      IsGap gap ∧ t.spacedText = gap ++ '\x7b' :: (body ++ ['\x7d']) ∧
      ∀ source ∈ ["$props", "$attrs"], ∃ d : Destructuring,
        Phrase.destructuring? (.objectPattern phrases) (.name source) = some d ∧
        d.keys = ((splitAll ',' body).map TextScan.entryNames).flatMap Prod.fst ∧
        d.bindings = ((splitAll ',' body).map TextScan.entryNames).flatMap Prod.snd ∧
        ('\x7d' ∉ body → ∀ before cs rest, TextScan.TakesApart before cs body source rest →
          TextScan.destructuring before cs = some (d, rest)) := by
  obtain ⟨gap, body, blank, text, same⟩ := exists_body_of_objectPattern plain symbol entries
  refine ⟨t.inner.map fun part => part.2.toPhrase, gap, body,
    fun step renamed => phrases_of_objectPattern symbol renamed,
    blank, text, fun source isSource => ?_⟩
  have named : source = "$props" ∨ source = "$attrs" := by simpa using isSource
  refine ⟨⟨source, (TextScan.bodyNames body).1, (TextScan.bodyNames body).2⟩, ?_, rfl, rfl,
    fun closed before cs rest declaration => TextScan.destructuring_of_takesApart declaration isSource closed⟩
  rw [Phrase.destructuring?, if_pos named, same]
  simp [shownNames, List.flatMap_map]

section Samples

theorem isTight_word {text : String} (ne_nil : text.toList ≠ [])
    (solid : (text.toList.all fun c => !isBlank c) = true) : IsTight text.toList :=
  .of_forall ne_nil fun c hc => by simpa using List.all_eq_true.1 solid c hc

theorem not_mem_text {c : Char} (plain : t.IsPlain IsGap) (free : c ∉ t.spacedText) : c ∉ t.text := by
  obtain ⟨gap, -, text⟩ := exists_gap_of_allGaps plain.gaps
  rw [text] at free
  exact fun member => free (List.mem_append_right _ member)

theorem takesApart_const (body : List Char) :
    TextScan.TakesApart none ("const \x7b".toList ++ (body ++ "\x7d = $props".toList)) body "$props" [] := by
  have blank : IsGap " ".toList := List.all_eq_true.1 (by decide)
  exact ⟨" ".toList, " ".toList, " ".toList, blank, blank, blank, by simp, rfl⟩

theorem exists_cardPattern : ∃ t : ParseTree, t.IsPlain IsGap ∧
    t.symbol = .phrase Kind.objectPattern.ctorIdx ∧
    t.spacedText = "\x7b label: title, size = 2, ...others \x7d".toList ∧ ArePlain t.inner := by
  have blank : IsGap " ".toList := List.all_eq_true.1 (by decide)
  have tight : IsGap "".toList := isGap_nil
  have key : (Rule.phrase .propertyName).Shows IsGap none (some .key) _ _ :=
    shows_group rfl rfl (by decide) (.inl (.inl (shows_piece " " "label" blank ⟨"label".toList, by decide⟩)))
  have title : (Rule.phrase .pattern).Shows IsGap none (some .value) _ _ :=
    shows_group rfl rfl (by decide)
      (.inl (shows_oneOf (r := Token.word) (by decide)
        (shows_piece " " "title" blank ⟨"title".toList, by decide⟩)))
  obtain ⟨pair, plainPair, textPair, showsPair⟩ :=
    exists_phrase_of_shows (k := .pairPattern) none rfl rfl (by decide)
    (.append key (.append (shows_piece "" ":" tight rfl) (.inl title)))
  have two : (Rule.phrase .expression).Shows IsGap none (some .right) _ _ :=
    shows_expression rfl (by decide)
      (shows_oneOf (r := Token.number) (by decide) (shows_piece " " "2" blank ⟨"2".toList, by decide⟩))
  obtain ⟨size, plainSize, textSize, showsSize⟩ :=
    exists_phrase_of_shows (k := .objectAssignmentPattern) none rfl rfl
    (by decide) (.append (.inl (.inr (shows_piece " " "size" blank ⟨"size".toList, by decide⟩)))
      (.append (shows_piece " " "=" blank rfl) two))
  obtain ⟨rest, plainRest, textRest, showsRest⟩ :=
    exists_phrase_of_shows (k := .restPattern) none rfl rfl (by decide)
    (.append (shows_piece " " "..." blank rfl) (shows_oneOf (r := Token.word) (by decide)
      (shows_piece "" "others" tight ⟨"others".toList, by decide⟩)))
  have more : (zeroOrMore (seq [",", slot])).Shows IsGap none none _ _ :=
    shows_twice (.append (shows_piece "" "," tight rfl) (.inl (.inr (.inr (.inl showsSize)))))
      (.append (shows_piece "" "," tight rfl) (.inl (.inr (.inl showsRest))))
  obtain ⟨t, plain, symbol, text, inner⟩ := (shows_iff_exists_tree (k := .objectPattern) rfl (by decide)).1
    (.append (shows_piece "" "\x7b" tight rfl)
      (.append (.inl (.append (.inl (.inl showsPair)) more)) (shows_piece " " "\x7d" blank rfl)))
  refine ⟨t, plain, symbol, text, ?_⟩
  rw [inner]
  refine List.forall_mem_cons.2 ⟨⟨?_, ?_⟩, List.forall_mem_cons.2
    ⟨⟨?_, ?_⟩, List.forall_mem_singleton.2 ⟨?_, ?_⟩⟩⟩
  · exact .pair ⟨isTight_word (by decide) (by decide), fun c first => by cases first; decide⟩
      (isTight_word (by decide) (by decide))
  · exact not_mem_text plainPair (textPair ▸ by decide)
  · exact .defaultedBare (isTight_word (by decide) (by decide)) _
  · exact not_mem_text plainSize (textSize ▸ by decide)
  · exact .rest (isTight_word (by decide) (by decide))
  · exact not_mem_text plainRest (textRest ▸ by decide)

theorem destructuring_cardPattern : ∃ (t : ParseTree) (phrases : List Phrase) (d : Destructuring),
    t.spacedText = "\x7b label: title, size = 2, ...others \x7d".toList ∧
    t.phrases scriptTables (some { symbol := t.symbol }) = [(none, .objectPattern phrases)] ∧
    Phrase.destructuring? (.objectPattern phrases) (.name "$props") = some d ∧
    TextScan.destructuring none "const \x7b label: title, size = 2, ...others \x7d = $props".toList =
      some (d, []) ∧
    d.keys = ["label", "size"] ∧ d.bindings = ["title", "size", "others"] := by
  obtain ⟨t, plain, symbol, whole, entries⟩ := exists_cardPattern
  obtain ⟨phrases, gap, body, shown, blank, text, reads⟩ :=
    destructuring_of_objectPattern plain symbol entries
  have spaced : '\x7b' :: (" label: title, size = 2, ...others ".toList ++ ['\x7d']) =
      gap ++ '\x7b' :: (body ++ ['\x7d']) := whole.symm.trans text
  obtain rfl : gap = [] := by
    cases gap with
    | nil => rfl
    | cons c gap =>
      obtain ⟨rfl, -⟩ := List.cons_eq_cons.1 spaced
      exact absurd (blank _ List.mem_cons_self) (by decide)
  obtain rfl : " label: title, size = 2, ...others ".toList = body :=
    List.append_cancel_right (List.cons_eq_cons.1 spaced).2
  obtain ⟨d, fromTree, keys, bindings, fromText⟩ := reads "$props" (by simp)
  have declaration := takesApart_const " label: title, size = 2, ...others ".toList
  exact ⟨t, phrases, d, whole, shown _ rfl, fromTree, fromText (by decide) none _ [] declaration,
    keys.trans (by decide), bindings.trans (by decide)⟩

/-- A byte order mark is white space between pieces, but not at the ends of an entry: there the tree gives
another key and another binding than the text. -/
theorem destructuring_markedPattern : ∃ (t : ParseTree) (phrases : List Phrase),
    t.IsPlain AreSpaces ∧
    t.spacedText = "\x7b\ufeffa\x7d".toList ∧
    t.phrases scriptTables (some { symbol := t.symbol }) = [(none, .objectPattern phrases)] ∧
    Phrase.destructuring? (.objectPattern phrases) (.name "$props") = some ⟨"$props", ["a"], ["a"]⟩ ∧
    TextScan.destructuring none "const \x7b\ufeffa\x7d = $props".toList =
      some (⟨"$props", ["\ufeffa"], ["\ufeffa"]⟩, []) := by
  have mark : AreSpaces "\ufeff".toList := List.all_eq_true.1 (by decide)
  obtain ⟨t, plain, symbol, text, inner⟩ := (shows_iff_exists_tree (k := .objectPattern) rfl (by decide)).1
    (.append (shows_piece "" "\x7b" areSpaces_nil rfl) (.append
      (.inl (.last (.inl (.inr (.inr (.inr (.inl (shows_piece "\ufeff" "a" mark ⟨"a".toList, by decide⟩))))))))
      (shows_piece "" "\x7d" areSpaces_nil rfl)))
  refine ⟨t, _, plain, text, phrases_of_objectPattern symbol rfl, ?_, ?_⟩
  · rw [inner]
    rfl
  · exact TextScan.destructuring_of_takesApart (takesApart_const "\ufeffa".toList) (by simp) (by decide)

end Samples

end PugComponents.Script

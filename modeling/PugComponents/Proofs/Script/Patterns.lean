import PugComponents.Proofs.Script.EntryText
import PugComponents.Proofs.Script.Shown

/-! The two ways to read an object pattern: from its tree, and from the text between its braces. Of every
entry that binds a plain name both give the same key and the same binding. What an entry shows and what its
text looks like follow from one rule, so each entry is read off the rule of its kind. -/

namespace PugComponents.Script

open Grammar ParseTree Text

def Outline.text : Outline → List Char
  | atom text => text.toList
  | phrase _ tree _ => tree.text

variable {P : List Char → Prop} {cs gap : List Char} {parts : List (Option Part × Outline)}
  {name : Option Kind} {place : Option Part} {r : Rule} {k : Kind}

section Pieces

theorem exists_gap_of_forall {ts : List ParseTree}
    (all : ∀ t ∈ ts, ∃ gap, IsGap gap ∧ t.spacedText = gap ++ t.text) :
    ∃ gap, IsGap gap ∧ spacedTextAll ts = gap ++ textAll ts := by
  cases ts with
  | nil => exact ⟨[], isGap_nil, rfl⟩
  | cons t ts =>
    obtain ⟨gap, blank, text⟩ := all t List.mem_cons_self
    exact ⟨gap, blank, by rw [spacedTextAll, text, textAll, List.append_assoc]⟩

theorem exists_gap_of_allGaps {t : ParseTree} (gaps : t.AllGaps IsGap) :
    ∃ gap, IsGap gap ∧ t.spacedText = gap ++ t.text := by
  induction gaps with
  | leaf blank => exact ⟨_, blank, by rw [spacedText, ParseTree.text]⟩
  | node start stop weight _ ih =>
    obtain ⟨gap, blank, text⟩ := exists_gap_of_forall ih
    exact ⟨gap, blank, by rw [spacedText, text, ParseTree.text]⟩

theorem exists_text_of_token {t : Token} (shows' : (Rule.token t).Shows IsGap name place cs parts) :
    ∃ gap piece, IsGap gap ∧ cs = gap ++ piece.text ∧ t.Spells piece.text ∧
      parts = t.parts name place piece := by
  obtain ⟨gap, text, start, stop, blank, spells, rfl, rfl⟩ := shows'
  exact ⟨gap, .leaf (numbering.token t) gap text start stop false, blank, rfl, spells, rfl⟩

theorem exists_gap_of_sign {s : String} (shows' : (Rule.token (.text s)).Shows IsGap none none cs parts)
    (sign : valueWords.contains s = false) : ∃ gap, IsGap gap ∧ cs = gap ++ s.toList ∧ parts = [] := by
  obtain ⟨gap, piece, blank, rfl, spells, rfl⟩ := exists_text_of_token shows'
  exact ⟨gap, blank, congrArg (gap ++ ·) spells, by rw [Token.parts, sign]; rfl⟩

end Pieces

section Phrases

theorem exists_tree_of_phrase (rule : rule? k = some r) (shown : k.isHidden = false)
    (shows' : (Rule.phrase k).Shows P none place cs parts) :
    ∃ t : ParseTree, t.IsPlain P ∧ cs = t.spacedText ∧ r.Shows P none none cs t.inner ∧
      parts = [(place, .phrase k t t.inner)] := by
  obtain ⟨t, plain, symbol, rfl, rfl⟩ := shows'
  refine ⟨t, plain, rfl, plain.shows rule symbol, ?_⟩
  rw [outlines_of_kind rule symbol rfl shown]
  cases place <;> rfl

theorem exists_inner_of_phrase (rule : rule? k = some r) (hidden : k.isHidden = true)
    (shows' : (Rule.phrase k).Shows P none place cs parts) :
    ∃ inner, r.Shows P none none cs inner ∧ parts = placed place inner := by
  obtain ⟨t, plain, symbol, rfl, rfl⟩ := shows'
  exact ⟨t.inner, plain.shows rule symbol, by rw [outlines_of_isHidden rule symbol rfl hidden]⟩

end Phrases

section Words

def Rule.isChoice (p : Token → Bool) : Rule → Bool
  | token t => p t
  | either a b => a.isChoice p && b.isChoice p
  | _ => false

theorem exists_token_of_isChoice {p : Token → Bool} (choice : r.isChoice p = true)
    (shows' : r.Shows P name place cs parts) :
    ∃ t, p t = true ∧ (Rule.token t).Shows P name place cs parts := by
  induction r with
  | token t => exact ⟨t, choice, shows'⟩
  | either a b iha ihb =>
    obtain ⟨choicea, choiceb⟩ := Bool.and_eq_true_iff.1 choice
    rcases shows' with left | right
    · exact iha choicea left
    · exact ihb choiceb right
  | _ => cases choice

def IsNamed (cs : List Char) (word : String) : Prop :=
  ∃ gap, IsGap gap ∧ cs = gap ++ word.toList ∧ ∀ c ∈ word.toList, isWordChar c = true

theorem isNamed_of_token {t : Token} (wordlike : t.isWordlike = true)
    (shows' : (Rule.token t).Shows IsGap name place cs parts) :
    ∃ piece, IsNamed cs piece.spelling ∧ parts = t.parts name place piece := by
  obtain ⟨gap, piece, blank, rfl, spells, rfl⟩ := exists_text_of_token shows'
  refine ⟨piece, ⟨gap, blank, ?_, ?_⟩, rfl⟩
  · rw [spelling, String.toList_ofList]
  · rw [spelling, String.toList_ofList]
    exact spells.forall_isWordChar wordlike

theorem exists_word_of_renamed (choice : r.isChoice Token.isWordlike = true)
    (shows' : (Rule.renamed k r).Shows IsGap name place cs parts) :
    ∃ piece, IsNamed cs piece.spelling ∧ parts = [(place, .phrase k piece [])] := by
  have inside : r.Shows IsGap (some k) place cs parts := shows'
  obtain ⟨t, wordlike, token⟩ := exists_token_of_isChoice choice inside
  exact isNamed_of_token wordlike token

end Words

section Targets

def Phrase.isTarget : Phrase → Bool
  | .name _ | .bare _ | .defaulted .. => true
  | _ => false

/-- One part is shown, which is no entry of an object pattern. If it is a variable then its name is all of
the text, and if it is a variable with a default value then the text starts with the name and goes on with an
equals sign. -/
structure ShowsTarget (place : Option Part) (cs : List Char) (parts : List (Option Part × Outline))
    (o : Outline) :
    Prop where
  parts_eq : parts = [(place, o)]
  notBare : ∀ word, o.toPhrase ≠ .bare word
  named : ∀ word, o.toPhrase = .name word → IsNamed cs word
  defaulted : ∀ word value, o.toPhrase = .defaulted (.name word) value →
    ∃ front gap rest, IsNamed front word ∧ IsGap gap ∧ cs = front ++ (gap ++ '=' :: rest)

theorem ShowsTarget.placed {o : Outline} (h : ShowsTarget none cs parts o) (place : Option Part) :
    ShowsTarget place cs (placed place parts) o where
  parts_eq := by rw [h.parts_eq]; cases place <;> rfl
  notBare := h.notBare
  named := h.named
  defaulted := h.defaulted

theorem ShowsTarget.of_isTarget_eq_false {o : Outline} (parts_eq : parts = [(place, o)])
    (neither : o.toPhrase.isTarget = false) : ShowsTarget place cs parts o where
  parts_eq := parts_eq
  notBare word same := by
    rw [same] at neither
    cases neither
  named word same := by
    rw [same] at neither
    cases neither
  defaulted word value same := by
    rw [same] at neither
    cases neither

theorem showsTarget_of_word {piece : ParseTree} (named : IsNamed cs piece.spelling)
    (parts_eq : parts = [(place, .phrase .variable piece [])]) :
    ShowsTarget place cs parts (.phrase .variable piece []) where
  parts_eq := parts_eq
  notBare _ same := nomatch same
  named word same := by
    obtain rfl : piece.spelling = word := Phrase.name.inj same
    exact named
  defaulted _ _ same := nomatch same

theorem exists_showsTarget_of_phrase (rule : ∃ r, rule? k = some r) (shown : k.isHidden = false)
    (neither : ∀ t parts, (k.phrase t parts).isTarget = false)
    (shows' : (Rule.phrase k).Shows P none place cs parts) : ∃ o, ShowsTarget place cs parts o := by
  obtain ⟨r, rule⟩ := rule
  obtain ⟨t, -, -, -, parts_eq⟩ := exists_tree_of_phrase rule shown shows'
  exact ⟨_, .of_isTarget_eq_false parts_eq (neither t _)⟩

theorem exists_showsTarget_of_destructuring
    (shows' : (Rule.phrase .destructuringPattern).Shows P none place cs parts) :
      ∃ o, ShowsTarget place cs parts o := by
  obtain ⟨inner, inside, rfl⟩ := exists_inner_of_phrase rfl rfl shows'
  have one : ∃ o, ShowsTarget none cs inner o := by
    rcases inside with object | array
    · exact exists_showsTarget_of_phrase ⟨_, rfl⟩ rfl (fun _ _ => rfl) object
    · exact exists_showsTarget_of_phrase ⟨_, rfl⟩ rfl (fun _ _ => rfl) array
  obtain ⟨o, one⟩ := one
  exact ⟨o, one.placed place⟩

theorem exists_showsTarget_of_target (shows' : target.Shows IsGap none place cs parts) :
    ∃ o, ShowsTarget place cs parts o := by
  rcases shows' with member | subscript | undefined' | word | reserved | pattern | nonNull
  · exact exists_showsTarget_of_phrase ⟨_, rfl⟩ rfl (fun _ _ => rfl) member
  · exact exists_showsTarget_of_phrase ⟨_, rfl⟩ rfl (fun _ _ => rfl) subscript
  · obtain ⟨gap, piece, -, -, -, parts_eq⟩ := exists_text_of_token undefined'
    exact ⟨_, .of_isTarget_eq_false parts_eq rfl⟩
  · obtain ⟨piece, named, parts_eq⟩ := isNamed_of_token rfl word
    exact ⟨_, showsTarget_of_word named parts_eq⟩
  · obtain ⟨piece, named, parts_eq⟩ := exists_word_of_renamed rfl reserved
    exact ⟨_, showsTarget_of_word named parts_eq⟩
  · exact exists_showsTarget_of_destructuring pattern
  · exact exists_showsTarget_of_phrase ⟨_, rfl⟩ rfl (fun _ _ => rfl) nonNull

theorem exists_showsTarget_of_pattern (shows' : (Rule.phrase .pattern).Shows IsGap none place cs parts) :
    ∃ o, ShowsTarget place cs parts o := by
  obtain ⟨inner, inside, rfl⟩ := exists_inner_of_phrase rfl rfl shows'
  have one : ∃ o, ShowsTarget none cs inner o := by
    rcases inside with target' | rest
    · exact exists_showsTarget_of_target target'
    · exact exists_showsTarget_of_phrase ⟨_, rfl⟩ rfl (fun _ _ => rfl) rest
  obtain ⟨o, one⟩ := one
  exact ⟨o, one.placed place⟩

theorem exists_of_default {a b : Rule}
    (shows' : (seq [.part .left a, "=", .part .right b]).Shows IsGap none none cs parts) :
    ∃ front gap rest left right, a.Shows IsGap none (some .left) front left ∧ IsGap gap ∧
      cs = front ++ (gap ++ '=' :: rest) ∧ parts = left ++ right := by
  obtain ⟨front, -, left, -, target', ⟨sign, rest, none', right, equals, -, rfl, rfl⟩, rfl, rfl⟩ := shows'
  obtain ⟨gap, blank, rfl, rfl⟩ := exists_gap_of_sign equals rfl
  exact ⟨front, gap, rest, left, right, target', blank, by rw [List.append_assoc]; rfl, rfl⟩

theorem exists_showsTarget_of_binding
    (shows' : (oneOf [.phrase .pattern, .phrase .assignmentPattern]).Shows IsGap none place cs parts) :
    ∃ o, ShowsTarget place cs parts o := by
  rcases shows' with pattern | assignment
  · exact exists_showsTarget_of_pattern pattern
  obtain ⟨t, -, -, inside, rfl⟩ := exists_tree_of_phrase rfl rfl assignment
  obtain ⟨front, gap, rest, left, right, first, blank, rfl, inner⟩ := exists_of_default inside
  obtain ⟨o, o_shown⟩ := exists_showsTarget_of_pattern first
  refine ⟨_, rfl, (fun _ same => nomatch same), (fun _ same => nomatch same), fun word value same => ?_⟩
  rw [inner, o_shown.parts_eq] at same
  exact ⟨front, gap, rest, o_shown.named word (Phrase.defaulted.inj same).1, blank, rfl⟩

end Targets

section Keys

/-- A key that is read as it stands: a word, a number, or a string without the signs at which the text of a
pattern is cut. -/
structure IsPlainKey (key : String) : Prop where
  tight : IsTight key.toList
  signless : ∀ c ∈ key.toList.head?, TextScan.isQuote c = true → ':' ∉ key.toList ∧ '=' ∉ key.toList

def IsKeyed (cs : List Char) (key : String) : Prop :=
  ∃ gap, IsGap gap ∧ cs = gap ++ key.toList ∧ ':' ∉ key.toList ∧ '=' ∉ key.toList ∧
    TextScan.IsUndotted key.toList

theorem isKeyed_of_isNamed {word : String} (named : IsNamed cs word) : IsKeyed cs word := by
  obtain ⟨gap, blank, rfl, all⟩ := named
  refine ⟨gap, blank, rfl, not_mem_of_forall rfl all, not_mem_of_forall rfl all, fun c first dot => ?_⟩
  have part := all c (List.mem_of_mem_head? first)
  rw [dot] at part
  cases part

theorem isKeyed_of_number {piece : ParseTree} (blank : IsGap gap) (spells : Token.number.Spells piece.text) :
    IsKeyed (gap ++ piece.text) piece.spelling := by
  refine ⟨gap, blank, ?_, ?_, ?_, ?_⟩
  all_goals rw [spelling, String.toList_ofList]
  · exact not_mem_of_forall rfl spells.forall_isNumberChar
  · exact not_mem_of_forall rfl spells.forall_isNumberChar
  · intro c first dot
    obtain ⟨more, text⟩ := List.head?_eq_some_iff.1 (Option.mem_def.1 first)
    rw [text, dot] at spells
    obtain ⟨d, next, digit⟩ := spells.exists_digit
    refine ⟨d, by rw [text]; exact next, ?_⟩
    rintro rfl
    cases digit

theorem eq_of_gap_append {gap' cs' : List Char} (blank : IsGap gap) (blank' : IsGap gap')
    (head : ∀ c ∈ cs.head?, isBlank c = false) (head' : ∀ c ∈ cs'.head?, isBlank c = false)
    (same : gap ++ cs = gap' ++ cs') : cs = cs' := by
  have stays {cs : List Char} (head : ∀ c ∈ cs.head?, isBlank c = false) : cs.dropWhile isBlank = cs := by
    cases cs with
    | nil => rfl
    | cons c cs => exact List.dropWhile_cons_of_neg (by simp [head c rfl])
  have cut := congrArg (List.dropWhile isBlank) same
  rwa [List.dropWhile_append_of_pos blank, List.dropWhile_append_of_pos blank', stays head,
    stays head'] at cut

theorem isKeyed_of_string {t : ParseTree} (gaps : t.AllGaps IsGap) (plain : IsPlainKey t.spelling)
    {quote : Char} {more : List Char} (isQuote : TextScan.isQuote quote = true) (blank : IsGap gap)
    (text : t.spacedText = gap ++ quote :: more) : IsKeyed t.spacedText t.spelling := by
  obtain ⟨gap', blank', spaced⟩ := exists_gap_of_allGaps gaps
  obtain ⟨⟨ne_nil, head, last⟩, signless⟩ := plain
  rw [spelling, String.toList_ofList] at ne_nil head signless
  have solid : isBlank quote = false := by
    simp only [TextScan.isQuote, Bool.or_eq_true, beq_iff_eq] at isQuote
    rcases isQuote with (rfl | rfl) | rfl <;> decide
  have same : t.text = quote :: more := by
    refine eq_of_gap_append blank' blank head (fun c first => ?_) (spaced.symm.trans text)
    obtain rfl : quote = c := Option.some.inj first
    exact solid
  have first : quote ∈ t.text.head? := by rw [same]; rfl
  refine ⟨gap', blank', ?_, ?_, ?_, ?_⟩
  all_goals rw [spelling, String.toList_ofList]
  · exact spaced
  · exact (signless quote first isQuote).1
  · exact (signless quote first isQuote).2
  · rw [same]
    intro c head dot
    obtain rfl : quote = c := Option.some.inj head
    rw [dot] at isQuote
    cases isQuote

theorem exists_key_of_propertyName
    (shows' : (Rule.phrase .propertyName).Shows IsGap none place cs parts) :
    parts = [] ∨ ∃ o, parts = [(place, o)] ∧
      ∀ key, o.toPhrase = .atom key → IsPlainKey key → IsKeyed cs key := by
  obtain ⟨inner, inside, rfl⟩ := exists_inner_of_phrase rfl rfl shows'
  have placed_one (o : Outline) : placed place [(none, o)] = [(place, o)] := by cases place <;> rfl
  rcases inside with word | privateName | string | number | computed
  · obtain ⟨piece, named, rfl⟩ := exists_word_of_renamed rfl word
    refine .inr ⟨_, placed_one _, fun key same _ => ?_⟩
    obtain rfl : piece.spelling = key := Phrase.atom.inj same
    exact isKeyed_of_isNamed named
  · obtain ⟨gap, piece, -, -, -, rfl⟩ := exists_text_of_token privateName
    exact .inl rfl
  · obtain ⟨t, plain, rfl, quoted, rfl⟩ := exists_tree_of_phrase rfl rfl string
    refine .inr ⟨_, placed_one _, fun key same plainKey => ?_⟩
    obtain rfl : t.spelling = key := Phrase.atom.inj same
    rcases quoted with double | single
    · obtain ⟨opening, rest, _, _, sign, -, text, -⟩ := double
      obtain ⟨gap, blank, rfl, -⟩ := exists_gap_of_sign sign rfl
      exact isKeyed_of_string plain.gaps plainKey rfl blank (text.trans (List.append_assoc ..))
    · obtain ⟨opening, rest, _, _, sign, -, text, -⟩ := single
      obtain ⟨gap, blank, rfl, -⟩ := exists_gap_of_sign sign rfl
      exact isKeyed_of_string plain.gaps plainKey rfl blank (text.trans (List.append_assoc ..))
  · obtain ⟨gap, piece, blank, rfl, spells, rfl⟩ := exists_text_of_token number
    refine .inr ⟨_, placed_one _, fun key same _ => ?_⟩
    obtain rfl : piece.spelling = key := Phrase.atom.inj same
    exact isKeyed_of_number blank spells
  · obtain ⟨t, -, -, -, rfl⟩ := exists_tree_of_phrase rfl rfl computed
    exact .inr ⟨_, placed_one _, fun _ same => nomatch same⟩

end Keys

section Texts

variable {word key : String} {front value gap' rest : List Char}

theorem IsNamed.not_mem {c : Char} (stop : isWordChar c = false) (named : IsNamed cs word) :
    c ∉ word.toList := by
  obtain ⟨-, -, -, all⟩ := named
  exact not_mem_of_forall stop all

theorem entryNames_of_isNamed (named : IsNamed cs word) (tight : IsTight word.toList) (after : IsGap gap) :
    TextScan.entryNames (cs ++ gap) = ([word], [word]) := by
  have target := TextScan.targetNames_of_name tight (named.not_mem rfl) isGap_nil
  obtain ⟨before, blank, rfl, -, bare, undotted⟩ := isKeyed_of_isNamed named
  rw [List.append_nil, String.ofList_toList] at target
  rw [List.append_assoc, TextScan.entryNames_of_target blank tight undotted bare after, target]

theorem entryNames_of_isNamed_default (named : IsNamed cs word) (tight : IsTight word.toList)
    (after : IsGap gap)
    (rest : List Char) : TextScan.entryNames (cs ++ (gap ++ '=' :: rest)) = ([word], [word]) := by
  have target := TextScan.targetNames_of_name tight (named.not_mem rfl) after
  obtain ⟨before, blank, rfl, -, bare, undotted⟩ := isKeyed_of_isNamed named
  rw [String.ofList_toList] at target
  rw [List.append_assoc, TextScan.entryNames_of_default blank tight undotted bare after, target]

/-- A key, a colon and a name between two stretches of white space. -/
structure IsPair (cs : List Char) (key word : String) : Prop where
  keyTight : IsTight key.toList
  tight : IsTight word.toList
  parts : ∃ key' gap value, IsKeyed key' key ∧ IsGap gap ∧ IsNamed value word ∧
    cs = key' ++ (gap ++ ':' :: value)

theorem IsPair.exists_head (pair : IsPair cs key word) : ∃ before head, IsGap before ∧ cs = before ++ head ∧
    IsTight head ∧ TextScan.IsUndotted head ∧ '=' ∉ head ∧
      ∀ gap, IsGap gap → TextScan.targetNames (head ++ gap) = ([stripQuotes key], [word]) := by
  obtain ⟨keyTight, tight, _, gap, value, ⟨before, blank, rfl, colonless, bare, undotted⟩, blank',
    named, rfl⟩ := pair
  have bare' := named.not_mem (show isWordChar '=' = false from rfl)
  obtain ⟨between, middle, rfl, -⟩ := named
  refine ⟨before, key.toList ++ ((gap ++ ':' :: between) ++ word.toList),
    blank, by simp, keyTight.append _ tight,
    undotted.append keyTight.ne_nil _, ?_, fun gap' after => ?_⟩
  · have free := not_mem_of_forall (show isBlank '=' = false by decide) blank'
    have free' := not_mem_of_forall (show isBlank '=' = false by decide) middle
    simp [bare, bare', free, free']
  · have names := TextScan.targetNames_of_pair keyTight colonless blank' middle tight after
    rw [String.ofList_toList, String.ofList_toList] at names
    rw [← names]
    simp

theorem IsPair.entryNames_eq (pair : IsPair cs key word) (after : IsGap gap) :
    TextScan.entryNames (cs ++ gap) = ([stripQuotes key], [word]) := by
  obtain ⟨before, head, blank, rfl, tight, undotted, bare, names⟩ := pair.exists_head
  have target := names [] isGap_nil
  rw [List.append_nil] at target
  rw [List.append_assoc, TextScan.entryNames_of_target blank tight undotted bare after, target]

theorem IsPair.entryNames_default (pair : IsPair cs key word) (after : IsGap gap) (rest : List Char) :
    TextScan.entryNames (cs ++ (gap ++ '=' :: rest)) = ([stripQuotes key], [word]) := by
  obtain ⟨before, head, blank, rfl, tight, undotted, bare, names⟩ := pair.exists_head
  rw [List.append_assoc, TextScan.entryNames_of_default blank tight undotted bare after, names gap after]

end Texts

/-- Entries of an object pattern that bind one plain name under a plain key, or take the rest. -/
inductive Phrase.IsPlainEntry : Phrase → Prop where
  | bare {name : String} (tight : IsTight name.toList) : IsPlainEntry (.bare name)
  | defaultedBare {name : String} (tight : IsTight name.toList) (value : Phrase) :
    IsPlainEntry (.defaulted (.bare name) value)
  | pair {key name : String} (plain : IsPlainKey key) (tight : IsTight name.toList) :
    IsPlainEntry (.pair (.atom key) (.name name))
  | defaultedPair {key name : String} (plain : IsPlainKey key) (tight : IsTight name.toList) (value : Phrase) :
    IsPlainEntry (.pair (.atom key) (.defaulted (.name name) value))
  | rest {name : String} (tight : IsTight name.toList) : IsPlainEntry (.rest (.name name))

section Entries

/-- One part is shown. If it is a plain entry, its text and its phrase give the same names. -/
structure ShowsEntry (cs : List Char) (parts : List (Option Part × Outline)) (o : Outline) : Prop where
  parts_eq : parts = [(none, o)]
  spaced : ∃ gap, IsGap gap ∧ cs = gap ++ o.text
  agrees : o.toPhrase.IsPlainEntry → ∀ gap, IsGap gap →
    TextScan.entryNames (cs ++ gap) = o.toPhrase.entryNames

theorem exists_showsEntry_of_shorthand (choice : r.isChoice Token.isWordlike = true)
    (shows' : (Rule.renamed .shorthandTarget r).Shows IsGap none none cs parts) :
      ∃ o, ShowsEntry cs parts o := by
  obtain ⟨piece, named, parts_eq⟩ := exists_word_of_renamed choice shows'
  refine ⟨_, parts_eq, ?_, fun plain gap blank => ?_⟩
  · obtain ⟨gap, blank, text, -⟩ := named
    rw [spelling, String.toList_ofList] at text
    exact ⟨gap, blank, text⟩
  · have entry : (Phrase.bare piece.spelling).IsPlainEntry := plain
    cases entry with
    | bare tight => exact entryNames_of_isNamed named tight blank

theorem exists_showsEntry_of_rest (shows' : (Rule.phrase .restPattern).Shows IsGap none none cs parts) :
    ∃ o, ShowsEntry cs parts o := by
  obtain ⟨t, plain, rfl, inside, parts_eq⟩ := exists_tree_of_phrase rfl rfl shows'
  refine ⟨_, parts_eq, exists_gap_of_allGaps plain.gaps, fun entry gap blank => ?_⟩
  obtain ⟨_, rest, _, _, sign, target', text, inner⟩ := inside
  obtain ⟨gap₀, blank₀, rfl, rfl⟩ := exists_gap_of_sign sign rfl
  obtain ⟨o, shown⟩ := exists_showsTarget_of_target target'
  rw [shown.parts_eq, List.nil_append] at inner
  rw [inner] at entry ⊢
  have rest' : (Phrase.rest o.toPhrase).IsPlainEntry := entry
  show _ = Phrase.entryNames (.rest o.toPhrase)
  generalize same : o.toPhrase = target' at rest'
  cases rest' with
  | rest tight =>
    obtain ⟨between, middle, rfl, -⟩ := shown.named _ same
    have names := TextScan.entryNames_of_rest blank₀ middle tight blank
    rw [String.ofList_toList] at names
    refine Eq.trans (congrArg TextScan.entryNames ?_) names
    rw [text]
    simp

theorem exists_showsEntry_of_pair (shows' : (Rule.phrase .pairPattern).Shows IsGap none none cs parts) :
    ∃ o, ShowsEntry cs parts o := by
  obtain ⟨t, plain, rfl, inside, parts_eq⟩ := exists_tree_of_phrase rfl rfl shows'
  refine ⟨_, parts_eq, exists_gap_of_allGaps plain.gaps, fun entry gap blank => ?_⟩
  obtain ⟨front, _, keys, _, propertyName, ⟨_, behind, _, values, colon, binding, rfl, rfl⟩, text,
    inner⟩ := inside
  obtain ⟨gap₀, blank₀, rfl, rfl⟩ := exists_gap_of_sign colon rfl
  obtain ⟨o, shown⟩ := exists_showsTarget_of_binding binding
  rw [shown.parts_eq, List.nil_append] at inner
  rcases exists_key_of_propertyName propertyName with rfl | ⟨k, rfl, keyed⟩
  · -- a private name is no key
    rw [inner] at entry
    have pair : (Phrase.pair .absent o.toPhrase).IsPlainEntry := entry
    cases pair
  · rw [inner] at entry ⊢
    have pair : (Phrase.pair k.toPhrase o.toPhrase).IsPlainEntry := entry
    show _ = Phrase.entryNames (.pair k.toPhrase o.toPhrase)
    generalize keyPhrase : k.toPhrase = key at pair
    generalize target : o.toPhrase = binding at pair
    cases pair with
    | @pair key name plainKey tight =>
      have whole : IsPair t.spacedText key name :=
        ⟨plainKey.tight, tight, front, gap₀, behind, keyed _ keyPhrase plainKey, blank₀,
          shown.named _ target, by
          rw [text, List.append_assoc]; rfl⟩
      exact whole.entryNames_eq blank
    | @defaultedPair key name plainKey tight value =>
      obtain ⟨before, gap', rest, named, blank', rfl⟩ := shown.defaulted _ _ target
      have whole : IsPair (front ++ (gap₀ ++ ':' :: before)) key name :=
        ⟨plainKey.tight, tight, front, gap₀, before, keyed _ keyPhrase plainKey, blank₀, named, rfl⟩
      refine Eq.trans (congrArg TextScan.entryNames ?_) (whole.entryNames_default blank' (rest ++ gap))
      rw [text]
      simp

theorem exists_showsEntry_of_default
    (shows' : (Rule.phrase .objectAssignmentPattern).Shows IsGap none none cs parts) :
    ∃ o, ShowsEntry cs parts o := by
  obtain ⟨t, plain, rfl, inside, parts_eq⟩ := exists_tree_of_phrase rfl rfl shows'
  refine ⟨_, parts_eq, exists_gap_of_allGaps plain.gaps, fun entry gap blank => ?_⟩
  obtain ⟨front, gap₀, rest, left, right, first, blank₀, text, inner⟩ := exists_of_default inside
  rcases first with word | nested
  · obtain ⟨piece, named, rfl⟩ := exists_word_of_renamed rfl word
    rw [inner] at entry ⊢
    have bare : (Phrase.defaulted (.bare piece.spelling) _).IsPlainEntry := entry
    cases bare with
    | defaultedBare tight =>
      refine Eq.trans (congrArg TextScan.entryNames ?_)
        (entryNames_of_isNamed_default named tight blank₀ (rest ++ gap))
      rw [text]
      simp
  · -- a pattern inside is no name
    obtain ⟨o, shown⟩ := exists_showsTarget_of_destructuring nested
    rw [inner, shown.parts_eq] at entry
    have default : (Phrase.defaulted o.toPhrase _).IsPlainEntry := entry
    generalize target : o.toPhrase = phrase at default
    cases default with
    | defaultedBare => exact absurd target (shown.notBare _)

theorem exists_showsEntry (shows' : (oneOf [.phrase .pairPattern, .phrase .restPattern,
    .phrase .objectAssignmentPattern, .renamed .shorthandTarget (oneOf [.token .word, reservedName])]).Shows
      IsGap none none cs parts) : ∃ o, ShowsEntry cs parts o := by
  rcases shows' with pair | rest | default | shorthand
  · exact exists_showsEntry_of_pair pair
  · exact exists_showsEntry_of_rest rest
  · exact exists_showsEntry_of_default default
  · exact exists_showsEntry_of_shorthand rfl shorthand

end Entries

end PugComponents.Script

import PugComponents.Proofs.Characters
import PugComponents.Proofs.Script.Search
import PugComponents.Script.Fragment

/-! The names that are read in a text that is no script. A name that stands in the text in its full length
is found unless it is a keyword, a property or the key of an object. -/

namespace PugComponents.Script.TextScan

open Text

def IsName (cs : List Char) : Prop :=
  ∃ c more, cs = c :: more ∧ isInitial c = true ∧ ∀ d ∈ more, isFurther d = true

structure StandsAlone (before word after : List Char) : Prop where
  isName : IsName word
  starts : ∀ c ∈ before.getLast?, isFurther c = false
  stops : ∀ c ∈ after.head?, isFurther c = false

/-- There is an opening brace or a comma in front, and a colon behind. -/
def IsKey (before after : List Char) : Prop :=
  ∃ front opener gap gap' rest, before = front ++ opener :: gap ∧ after = gap' ++ ':' :: rest ∧
    (opener = '\x7b' ∨ opener = ',') ∧ (∀ c ∈ gap, isBlank c = true) ∧ ∀ c ∈ gap', isBlank c = true

/-- There is a dot in front, be it that of an access or the last one of a spread. -/
def IsMember (before : List Char) : Prop := before.getLast? = some '.'

theorem IsName.forall_isFurther {word : List Char} (h : IsName word) : ∀ c ∈ word, isFurther c = true := by
  obtain ⟨c, more, rfl, initial, further⟩ := h
  exact List.forall_mem_cons.2 ⟨isFurther_of_isInitial initial, further⟩

theorem IsName.eq_nil_of_isBlank {word rest cs ds : List Char} (h : IsName word)
    (same : word ++ rest = cs ++ ds) (blank : ∀ c ∈ cs, isBlank c = true) : cs = [] := by
  obtain ⟨c, more, rfl, initial, -⟩ := h
  cases cs with
  | nil => rfl
  | cons d cs =>
    obtain ⟨rfl, -⟩ := List.cons_eq_cons.1 same
    have notBlank := isBlank_eq_false_of_isInitial initial
    exact absurd (blank c List.mem_cons_self) (by simp [notBlank])

theorem IsName.append_ne {word rest cs ds : List Char} (h : IsName word)
    (blank : ∀ c ∈ cs, isBlank c = true) : word ++ rest ≠ cs ++ ':' :: ds := by
  intro same
  obtain rfl := h.eq_nil_of_isBlank same blank
  obtain ⟨c, more, rfl, initial, -⟩ := h
  obtain ⟨rfl, -⟩ := List.cons_eq_cons.1 same
  exact Bool.false_ne_true initial

theorem IsName.eq_of_append_eq {word word' rest rest' : List Char} (h : IsName word) (h' : IsName word')
    (stops : ∀ c ∈ rest.head?, isFurther c = false) (stops' : ∀ c ∈ rest'.head?, isFurther c = false)
    (same : word ++ rest = word' ++ rest') : rest = rest' := by
  have ends {more left : List Char} (further : ∀ c ∈ more, isFurther c = true)
      (stops : ∀ c ∈ (more ++ left).head?, isFurther c = false) : more = [] := by
    cases more with
    | nil => rfl
    | cons c more =>
      have stop := stops c rfl
      exact absurd (further c List.mem_cons_self) (by simp [stop])
  rcases List.append_eq_append_iff.1 same with ⟨more, rfl, rfl⟩ | ⟨more, rfl, rfl⟩
  · obtain rfl := ends (fun c hc => h'.forall_isFurther c (List.mem_append_right _ hc)) stops
    rfl
  · obtain rfl := ends (fun c hc => h.forall_isFurther c (List.mem_append_right _ hc)) stops'
    rfl

section Patterns

variable {cs left : List Char}

theorem name_eq_some {found : String} :
    name cs = some (found, left) ↔ ∃ word, cs = word ++ left ∧ IsName word ∧
      (∀ c ∈ left.head?, isFurther c = false) ∧ found = String.ofList word := by
  simp only [name, bind_eq_some, takeOne_eq_some, takeAll_eq_some, pure_eq_some]
  constructor
  · rintro ⟨c, _, ⟨rfl, initial⟩, more, _, ⟨rfl, further, stops⟩, rfl, rfl⟩
    exact ⟨c :: more, rfl, ⟨c, more, rfl, initial, further⟩, stops, rfl⟩
  · rintro ⟨_, rfl, ⟨c, more, rfl, initial, further⟩, stops, rfl⟩
    exact ⟨c, _, ⟨rfl, initial⟩, more, _, ⟨rfl, further, stops⟩, rfl, rfl⟩

theorem identifier_eq_some {before : Option Char} {found : String} :
    identifier before cs = some (found, left) ↔
      (∀ c ∈ before, isFurther c = false ∧ c ≠ '.') ∧ name cs = some (found, left) := by
  have start : (!(before.map fun c => isFurther c || c == '.').getD false) = true ↔
      ∀ c ∈ before, isFurther c = false ∧ c ≠ '.' := by
    cases before <;> simp
  rw [identifier, bind_eq_some]
  constructor
  · rintro ⟨_, _, started, found⟩
    obtain ⟨free, rfl⟩ := guard_eq_some.1 started
    exact ⟨start.1 free, found⟩
  · rintro ⟨free, found⟩
    exact ⟨(), _, guard_eq_some.2 ⟨start.2 free, rfl⟩, found⟩

theorem exists_of_objectKey {before : Option Char} {new : List Char}
    (h : objectKey before cs = some (new, left)) :
    ∃ opener gap word gap', cs = opener :: (gap ++ (word ++ (gap' ++ ':' :: left))) ∧
      new = opener :: gap ++ gap' ++ [':'] ∧ (opener = '\x7b' ∨ opener = ',') ∧
      (∀ c ∈ gap, isBlank c = true) ∧ (∀ c ∈ gap', isBlank c = true) ∧ IsName word ∧
      ∀ c ∈ (gap' ++ ':' :: left).head?, isFurther c = false := by
  simp only [objectKey, blanks, bind_eq_some, takeOne_eq_some, takeAll_eq_some, name_eq_some, pure_eq_some,
    exactly_eq_some, notNext_eq_some] at h
  obtain ⟨opener, _, ⟨rfl, isOpener⟩, gap, _, ⟨rfl, blank, -⟩, _, _, ⟨word, rfl, isName, stops, -⟩, gap', _,
    ⟨rfl, blank', -⟩, _, _, rfl, _, _, ⟨rfl, -⟩, rfl, rfl⟩ := h
  exact ⟨opener, gap, word, gap', rfl, rfl, by simpa using isOpener, blank, blank', isName, stops⟩

theorem keepsEnds_objectKey : KeepsEnds objectKey := by
  intro before c ds new left matched
  obtain ⟨opener, gap, word, gap', same, rfl, -⟩ := exists_of_objectKey matched
  obtain ⟨rfl, rfl⟩ := List.cons_eq_cons.1 same
  exact ⟨rfl, gap ++ (word ++ (gap' ++ [':'])), by simp, by simp [List.getLast?_cons]⟩

end Patterns

section Words

variable {before word after : List Char}

theorem StandsAlone.eq_nil {front back : List Char} (alone : StandsAlone before word after)
    (tail : front ++ back = before) (further : ∀ c ∈ back, isFurther c = true) : back = [] := by
  rcases List.eq_nil_or_concat back with rfl | ⟨more, c, rfl⟩
  · rfl
  · have stop := alone.starts c (by rw [← tail]; simp)
    exact absurd (further c (by simp)) (by simp [stop])

/-- The key between two signs is not cut in two by a name that is no key. -/
theorem staysWithin_objectKey (alone : StandsAlone before word after) (notKey : ¬ IsKey before after) :
    StaysWithin objectKey before (word ++ after) := by
  rintro ahead c ds ⟨front, tail⟩ new left matched
  obtain ⟨opener, gap, key, gap', whole, -, isOpener, blank, blank', isName, stops⟩ :=
    exists_of_objectKey matched
  obtain ⟨rfl, same⟩ := List.cons_eq_cons.1 whole
  -- If the key starts where the word does, it is the word.
  have apart (start : ds = gap) (keyed : word ++ after = key ++ (gap' ++ ':' :: left)) : False := by
    subst start
    have behind := alone.isName.eq_of_append_eq isName alone.stops stops keyed
    exact notKey ⟨front, c, ds, gap', left, tail.symm, behind, isOpener, blank, blank'⟩
  rcases List.append_eq_append_iff.1 same with ⟨rest, rfl, keyed⟩ | ⟨rest, rfl, keyed⟩
  · obtain rfl := alone.isName.eq_nil_of_isBlank keyed fun c hc => blank c (List.mem_append_right _ hc)
    exact (apart (List.append_nil ds).symm keyed).elim
  · rcases List.append_eq_append_iff.1 keyed with ⟨rest', rfl, closed⟩ | ⟨rest', rfl, closed⟩
    · rcases List.append_eq_append_iff.1 closed with ⟨rest, rfl, ended⟩ | ⟨rest, rfl, ended⟩
      · cases rest with
        | nil =>
          have starts : word ++ after = [] ++ ':' :: left := ended.symm
          exact (alone.isName.append_ne (List.forall_mem_nil _) starts).elim
        | cons d ds' =>
          obtain ⟨rfl, rfl⟩ := List.cons_eq_cons.1 ended
          exact ⟨gap ++ (key ++ (gap' ++ [':'])), ds', by simp, rfl⟩
      · exact (alone.isName.append_ne (fun c hc => blank' c (List.mem_append_right _ hc)) ended).elim
    · have tail' : (front ++ c :: gap) ++ rest = before := by rw [← tail, List.append_assoc, List.cons_append]
      obtain rfl := alone.eq_nil tail' fun c hc => isName.forall_isFurther c (List.mem_append_left _ hc)
      exact (apart (List.append_nil gap) closed).elim

/-- A name in front of one that stands alone ends there. -/
theorem staysWithin_identifier (alone : StandsAlone before word after) :
    StaysWithin identifier before (word ++ after) := by
  rintro ahead c ds ⟨front, tail⟩ found left matched
  obtain ⟨key, same, isName, -⟩ := name_eq_some.1 (identifier_eq_some.1 matched).2
  rw [← List.cons_append] at same
  rcases List.append_eq_append_iff.1 same with ⟨rest, rfl, -⟩ | ⟨rest, split, rfl⟩
  · have none := alone.eq_nil tail fun d hd => isName.forall_isFurther d (List.mem_append_left _ hd)
    exact absurd none (List.cons_ne_nil c ds)
  · obtain ⟨first, more, rfl, -⟩ := isName
    obtain ⟨rfl, rfl⟩ := List.cons_eq_cons.1 split
    exact ⟨more, rest, rfl, rfl⟩

theorem exists_replaceAll_objectKey (alone : StandsAlone before word after) (notKey : ¬ IsKey before after) :
    ∃ before' after', replaceAll objectKey (before ++ (word ++ after)) = before' ++ (word ++ after') ∧
      before'.getLast? = before.getLast? ∧ StandsAlone before' word after' := by
  obtain ⟨before', first, last⟩ :=
    exists_replaceAllFrom_append keepsEnds_objectKey none before (staysWithin_objectKey alone notKey)
  have unsigned : ∀ c ∈ word, ∀ ahead ds, objectKey ahead (c :: ds) = none := by
    intro c hc ahead ds
    cases matched : objectKey ahead (c :: ds) with
    | none => rfl
    | some found =>
      have further := alone.isName.forall_isFurther c hc
      obtain ⟨opener, gap, key, gap', whole, -, isOpener, -⟩ := exists_of_objectKey matched
      obtain ⟨rfl, -⟩ := List.cons_eq_cons.1 whole
      rcases isOpener with rfl | rfl <;> exact absurd further (by decide)
  have start := head?_replaceAllFrom keepsEnds_objectKey (lastOf (lastOf none before) word) after
  refine ⟨before', _, ?_, last, alone.isName, last ▸ alone.starts, start ▸ alone.stops⟩
  rw [replaceAll, first, replaceAllFrom_append_of_none unsigned]

theorem mem_findAll_identifier (alone : StandsAlone before word after) (notMember : ¬ IsMember before) :
    String.ofList word ∈ findAll identifier (before ++ (word ++ after)) := by
  obtain ⟨found, searched⟩ := exists_findAllFrom_append none before (staysWithin_identifier alone)
  have free : ∀ c ∈ lastOf none before, isFurther c = false ∧ c ≠ '.' := by
    rw [lastOf_none]
    rintro c last
    refine ⟨alone.starts c last, ?_⟩
    rintro rfl
    exact notMember last
  have matched : identifier (lastOf none before) (word ++ after) = some (String.ofList word, after) :=
    identifier_eq_some.2 ⟨free, name_eq_some.2 ⟨word, rfl, alone.isName, alone.stops, rfl⟩⟩
  obtain ⟨c, more, rfl, -⟩ := alone.isName
  rw [findAll, searched, List.cons_append, findAllFrom, ← List.cons_append, matched]
  exact List.mem_append_right _ List.mem_cons_self

end Words

section Plain

variable {cs : List Char}

theorem literal_eq_none (acrossLines : Bool) {c : Char} {ds : List Char} (plain : isQuote c = false) :
    literal acrossLines (c :: ds) = none := by
  have unquoted : takeOne isQuote (c :: ds) = none := by simp [takeOne, plain]
  show (takeOne isQuote (c :: ds)).bind _ = none
  rw [unquoted, Option.bind_none]

theorem comment_eq_none {c : Char} {ds : List Char} (plain : c ≠ '/') : comment (c :: ds) = none := by
  have unmarked : exactly "/" (c :: ds) = none := by simp [exactly, Text.dropStart?, Ne.symm plain]
  show (exactly "/" (c :: ds)).bind _ = none
  rw [unmarked, Option.bind_none]

theorem replaceAll_eq_self {p : Finder (List Char)}
    (none : ∀ c ∈ cs, ∀ before ds, p before (c :: ds) = none) :
    replaceAll p cs = cs := by
  have kept : replaceAllFrom p Option.none 0 (cs ++ []) = cs ++ _ := replaceAllFrom_append_of_none none _
  rwa [List.append_nil, replaceAllFrom, List.append_nil] at kept

theorem withoutComments_eq_self (plain : ∀ c ∈ cs, isQuote c = false ∧ c ≠ '/') :
    withoutComments cs = cs := by
  refine replaceAll_eq_self fun c hc before ds => ?_
  have unquoted : perhaps (literal true) (c :: ds) = some (none, c :: ds) := by
    rw [perhaps, literal_eq_none true (plain c hc).1]
  show (perhaps (literal true) (c :: ds)).bind _ = none
  rw [unquoted]
  show (comment (c :: ds)).bind _ = none
  rw [comment_eq_none (plain c hc).2, Option.bind_none]

theorem withoutStrings_eq_self (plain : ∀ c ∈ cs, isQuote c = false) : withoutStrings cs = cs := by
  refine replaceAll_eq_self fun c hc before ds => ?_
  show (literal false (c :: ds)).bind _ = none
  rw [literal_eq_none false (plain c hc), Option.bind_none]

end Plain

/-- In a text without quotes and slashes, every name that stands in its full length is read, unless it is a
keyword, has a dot in front or is the key of an object. -/
theorem read_of_standsAlone {source : String} {before word after : List Char}
    (text : source.toList = before ++ (word ++ after)) (alone : StandsAlone before word after)
    (plain : ∀ c ∈ source.toList, isQuote c = false ∧ c ≠ '/') (notKeyword : String.ofList word ∉ keywords)
    (notMember : ¬ IsMember before) (notKey : ¬ IsKey before after) :
    String.ofList word ∈ (Fragment.ofScript source none).referenced := by
  have bare : withoutStrings (withoutComments source.toList) = before ++ (word ++ after) := by
    rw [withoutComments_eq_self plain, withoutStrings_eq_self fun c hc => (plain c hc).1, text]
  obtain ⟨before', after', unkeyed, last, alone'⟩ := exists_replaceAll_objectKey alone notKey
  have notMember' : ¬ IsMember before' := by rwa [IsMember, last]
  refine Fragment.mem_referenced_ofNames.2 (List.mem_filter.2 ⟨?_, by simpa using notKeyword⟩)
  rw [bare, unkeyed]
  exact mem_findAll_identifier alone' notMember'

theorem not_isKey {before after : List Char} (stops : ∀ c ∈ after.head?, isBlank c = false ∧ c ≠ ':') :
    ¬ IsKey before after := by
  rintro ⟨front, opener, gap, gap', rest, -, rfl, -, -, blank⟩
  cases gap' with
  | nil => exact (stops ':' rfl).2 rfl
  | cons c gap' => exact Bool.false_ne_true ((stops c rfl).1.symm.trans (blank c List.mem_cons_self))

theorem standsAlone_of_parenthesis {before word rest : List Char} (isName : IsName word)
    (starts : ∀ c ∈ before.getLast?, isFurther c = false) : StandsAlone before word (')' :: rest) where
  isName := isName
  starts := starts
  stops c first := Option.some.inj (first : some ')' = some c) ▸ by decide

/-- The head of a conditional, with a property, a key, a spread and further arguments. -/
def openConditional : String := "if (check(item.name, \x7bkind: none\x7d, ...extra, last)) \x7b"

theorem read_openConditional : "last" ∈ (Fragment.ofScript openConditional none).referenced := by
  have alone : StandsAlone "if (check(item.name, \x7bkind: none\x7d, ...extra, ".toList "last".toList
      ")) \x7b".toList :=
    standsAlone_of_parenthesis ⟨'l', "ast".toList, rfl, by decide, List.all_eq_true.1 (by decide)⟩
      fun c last => Option.some.inj (last : some ' ' = some c) ▸ by decide
  have plain : ∀ c ∈ openConditional.toList, (!isQuote c && c != '/') = true := List.all_eq_true.1 (by decide)
  exact read_of_standsAlone rfl alone (fun c hc => by simpa using plain c hc) (by decide)
    (by unfold IsMember; decide) (not_isKey fun c first => Option.some.inj
      (first : some ')' = some c) ▸ by decide)

/-- An argument behind the dots of a spread stands alone and is no key, but it is not read. -/
theorem unread_spreadArgument : StandsAlone "if (f(...".toList "args".toList ")) \x7b".toList ∧
    ¬ IsKey "if (f(...".toList ")) \x7b".toList ∧ "args" ∉ keywords ∧
    "args" ∉ (Fragment.ofScript "if (f(...args)) \x7b" none).referenced :=
  ⟨standsAlone_of_parenthesis ⟨'a', "rgs".toList, rfl, by decide, List.all_eq_true.1 (by decide)⟩
      fun c last => Option.some.inj (last : some '.' = some c) ▸ by decide,
    not_isKey fun c first => Option.some.inj (first : some ')' = some c) ▸ by decide, by decide, by decide⟩

end PugComponents.Script.TextScan

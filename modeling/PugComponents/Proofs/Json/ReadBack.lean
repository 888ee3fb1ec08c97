import PugComponents.Json.Read
import PugComponents.Json.Write
import Mathlib.Data.List.TakeWhile
import Mathlib.Tactic.IntervalCases

/-! Reading what was written. A text, an integer and a value of any nesting come back in every layout,
with whatever follows them left over; the room that reading needs is the length of what is written. All
that is written is ASCII. Only two kinds of values are left out: numbers with a fraction, which are written
by their shortest digits, and objects that have a key twice, of which one value is kept. -/

namespace PugComponents.Json

abbrev IsAscii (cs : List Char) : Prop := ∀ c ∈ cs, c = '\n' ∨ 0x20 ≤ c.toNat ∧ c.toNat < 0x7f

-- The list is what is gone through: `Char` is finite, and an instance may go through all of it instead.
instance (cs : List Char) : Decidable (IsAscii cs) := List.decidableBAll _ cs

theorem isAscii_append {cs ds : List Char} (first : IsAscii cs) (second : IsAscii ds) :
    IsAscii (cs ++ ds) :=
  List.forall_mem_append.2 ⟨first, second⟩

section Digits

theorem digitsValue_eq (ds : List Char) : digitsValue ds = Nat.ofDigitChars 10 ds 0 := by
  rw [digitsValue, Nat.ofDigitChars_eq_foldl]
  congr 1
  funext n d
  rw [Nat.mul_comm]
  rfl

theorem digitsValue_digitText (n : Nat) : digitsValue (digitText n) = n := by
  rw [digitsValue_eq, digitText, Nat.ofDigitChars_ten_toDigits]

theorem isDigit_of_mem_digitText {n : Nat} {c : Char} (h : c ∈ digitText n) : c.isDigit = true :=
  Nat.isDigit_of_mem_toDigits (by decide) (by decide) h

theorem exists_digitText (n : Nat) : ∃ d ds, digitText n = d :: ds ∧ d.isDigit = true := by
  obtain ⟨d, ds, text⟩ := List.exists_cons_of_ne_nil (Nat.toDigits_ne_nil (n := n) (b := 10))
  exact ⟨d, ds, text, isDigit_of_mem_digitText (n := n) (by rw [digitText, text]; simp)⟩

theorem eq_zero_of_digitText {n : Nat} {ds : List Char} (h : digitText n = '0' :: ds) : n = 0 := by
  induction n using Nat.strong_induction_on generalizing ds with
  | _ n ih =>
    have first : ∀ d < 10, Nat.digitChar d = '0' → d = 0 := by decide
    rw [digitText, Nat.toDigits_eq_if (by decide)] at h
    split at h
    · rename_i single
      exact first n single (by simpa using congrArg List.head? h)
    · rename_i large
      obtain ⟨c, cs, text, -⟩ := exists_digitText (n / 10)
      rw [← digitText, text] at h
      obtain rfl : c = '0' := by simpa using congrArg List.head? h
      have zero := ih (n / 10) (by omega) text
      omega

/-- What follows a number does not go on with it. -/
def EndsNumber (rest : List Char) : Prop :=
  ∀ c ∈ rest.head?, c.isDigit = false ∧ c ≠ '.' ∧ c ≠ 'e' ∧ c ≠ 'E'

variable {rest : List Char}

theorem takeWhile_isDigit_append {ds : List Char} (digits : ∀ d ∈ ds, d.isDigit = true)
    (ends : EndsNumber rest) :
    (ds ++ rest).takeWhile Char.isDigit = ds ∧ (ds ++ rest).dropWhile Char.isDigit = rest := by
  have stops : rest.takeWhile Char.isDigit = [] ∧ rest.dropWhile Char.isDigit = rest := by
    cases rest with
    | nil => exact ⟨rfl, rfl⟩
    | cons c cs =>
      have stop := (ends c rfl).1
      simp [stop]
  rw [List.takeWhile_append_of_pos digits, List.dropWhile_append_of_pos digits, stops.1, stops.2]
  exact ⟨List.append_nil ds, rfl⟩

theorem readWhole?_digitText (n : Nat) (ends : EndsNumber rest) :
    readWhole? (digitText n ++ rest) = some (digitText n, rest) := by
  obtain ⟨d, ds, text, digit⟩ := exists_digitText n
  by_cases zero : d = '0'
  · subst zero
    obtain rfl : n = 0 := eq_zero_of_digitText text
    rfl
  · have digits : ∀ c ∈ ds, c.isDigit = true :=
      fun c hc => isDigit_of_mem_digitText (text ▸ List.mem_cons_of_mem d hc)
    obtain ⟨taken, left⟩ := takeWhile_isDigit_append digits ends
    rw [text, List.cons_append, readWhole?, if_pos digit, taken, left]
    exact zero

theorem readFraction_of_ends (ends : EndsNumber rest) : readFraction rest = ([], rest) := by
  unfold readFraction
  split
  · exact absurd rfl (ends '.' rfl).2.1
  · rfl

theorem readExponent_of_ends (ends : EndsNumber rest) : readExponent rest = (none, rest) := by
  cases rest with
  | nil => rfl
  | cons c cs =>
    obtain ⟨-, -, lower, upper⟩ := ends c rfl
    simp [readExponent, lower, upper]

theorem readMagnitude_digitText (negative : Bool) {n : Nat} (short : (digitText n).length ≤ digitLimit)
    (ends : EndsNumber rest) :
    readMagnitude negative (digitText n ++ rest) =
      .ok (.int (if negative then -(n : Int) else n), rest) := by
  simp only [readMagnitude, readWhole?_digitText n ends, required_some, ok_bind, readFraction_of_ends ends,
    readExponent_of_ends ends, if_pos short, digitsValue_digitText]

theorem exists_of_isDigit {c : Char} (digit : c.isDigit = true) :
    ∃ k, 48 ≤ k ∧ k ≤ 57 ∧ Char.ofNat k = c := by
  simp only [Char.isDigit, Bool.and_eq_true, decide_eq_true_eq] at digit
  exact ⟨c.toNat, digit.1, digit.2, Char.ofNat_toNat c⟩

theorem isAscii_intText (n : Int) : IsAscii (intText n) := by
  have digits : ∀ m, IsAscii (digitText m) := by
    intro m c hc
    obtain ⟨k, low, high, rfl⟩ := exists_of_isDigit (isDigit_of_mem_digitText hc)
    exact .inr (by interval_cases k <;> decide)
  cases n with
  | ofNat m => exact digits m
  | negSucc m => exact isAscii_append (show IsAscii ['-'] by decide) (digits (m + 1))

theorem readNumber_digit {c : Char} (digit : c.isDigit = true) (cs : List Char) :
    readNumber (c :: cs) = readMagnitude false (c :: cs) ∧
      readNumber ('-' :: c :: cs) = readMagnitude true (c :: cs) := by
  obtain ⟨k, low, high, rfl⟩ := exists_of_isDigit digit
  interval_cases k <;> exact ⟨rfl, rfl⟩

theorem readNumber_intText {n : Int} (short : (int n).isShort = true) (ends : EndsNumber rest) :
    readNumber (intText n ++ rest) = .ok (.int n, rest) := by
  rw [isShort, decide_eq_true_eq] at short
  cases n with
  | ofNat m =>
    have read := readMagnitude_digitText (n := m) false short ends
    obtain ⟨d, ds, text, digit⟩ := exists_digitText m
    rw [intText, text, List.cons_append, (readNumber_digit digit _).1, ← List.cons_append, ← text, read]
    rfl
  | negSucc m =>
    have read := readMagnitude_digitText (n := m + 1) true short ends
    obtain ⟨d, ds, text, digit⟩ := exists_digitText (m + 1)
    rw [intText, text, List.cons_append, List.cons_append, (readNumber_digit digit _).2,
      ← List.cons_append, ← text, read]
    rfl

end Digits

section Quoted

theorem hexValue?_digitChar {d : Nat} (h : d < 16) : hexValue? (Nat.digitChar d) = some d := by
  have all : ∀ d < 16, hexValue? (Nat.digitChar d) = some d := by decide
  exact all d h

theorem readHex4?_hex4 {n : Nat} (h : n < 0x10000) (rest : List Char) :
    readHex4? (hex4 n ++ rest) = some (n, rest) := by
  have digit : ∀ m, hexValue? (Nat.digitChar (m % 16)) = some (m % 16) :=
    fun m => hexValue?_digitChar (Nat.mod_lt m (by decide))
  have value : ((n / 0x1000 % 16 * 16 + n / 0x100 % 16) * 16 + n / 0x10 % 16) * 16 + n % 16 = n := by
    omega
  simp [hex4, readHex4?, digit, value]

theorem readUnit?_hex4 {c : Char} (basic : c.toNat < 0x10000) (rest : List Char) :
    readUnit? (hex4 c.toNat ++ rest) = some (c, rest) := by
  have valid : c.toNat < 0xd800 ∨ 0xdfff < c.toNat ∧ c.toNat < 0x110000 := c.valid
  have notHigh : ¬(0xd800 ≤ c.toNat ∧ c.toNat < 0xdc00) := by omega
  have notLow : ¬(0xdc00 ≤ c.toNat ∧ c.toNat < 0xe000) := by omega
  simp [readUnit?, readHex4?_hex4 basic, notHigh, notLow]

theorem readUnit?_pair {n : Nat} (h : n < 0x100000) (rest : List Char) :
    readUnit? (hex4 (0xd800 + n / 0x400) ++ '\\' :: 'u' :: (hex4 (0xdc00 + n % 0x400) ++ rest)) =
      some (Char.ofNat (0x10000 + n), rest) := by
  generalize high : 0xd800 + n / 0x400 = first
  generalize low : 0xdc00 + n % 0x400 = second
  have isHigh : 0xd800 ≤ first ∧ first < 0xdc00 := by omega
  have isLow : 0xdc00 ≤ second ∧ second < 0xe000 := by omega
  have whole : 0x10000 + (first - 0xd800) * 0x400 + (second - 0xdc00) = 0x10000 + n := by omega
  have half : readLow? ('\\' :: 'u' :: (hex4 second ++ rest)) = some (second, rest) := by
    simp [readLow?, readHex4?_hex4 (show second < 0x10000 by omega), isLow]
  simp only [readUnit?, readHex4?_hex4 (show first < 0x10000 by omega), Option.bind_eq_bind,
    Option.bind_some, if_pos isHigh, half, whole]

theorem readQuoted?_backslash (n : Nat) (cs : List Char) :
    readQuoted? (n + 1) ('\\' :: cs) = (readEscape? cs).bind fun (d, rest) =>
      (readQuoted? n rest).bind fun (ds, rest) => some (d :: ds, rest) := rfl

theorem readEscape?_unit (cs : List Char) : readEscape? ('u' :: cs) = readUnit? cs := rfl

theorem quoteChar_cases (c : Char) :
    (∃ e, quoteChar c = ['\\', e] ∧ IsAscii [e] ∧
        ∀ rest, readEscape? (e :: rest) = some (c, rest)) ∨
      (quoteChar c = [c] ∧ c ≠ '"' ∧ c ≠ '\\' ∧ 0x20 ≤ c.toNat ∧ c.toNat < 0x7f) ∨
      (quoteChar c = '\\' :: 'u' :: hex4 c.toNat ∧ c.toNat < 0x10000) ∨
      ∃ n, quoteChar c = '\\' :: 'u' :: hex4 (0xd800 + n / 0x400) ++
        '\\' :: 'u' :: hex4 (0xdc00 + n % 0x400) ∧ n < 0x100000 ∧ Char.ofNat (0x10000 + n) = c := by
  by_cases quote : c = '"'
  · subst quote
    exact .inl ⟨'"', rfl, by decide, fun _ => rfl⟩
  by_cases backslash : c = '\\'
  · subst backslash
    exact .inl ⟨'\\', rfl, by decide, fun _ => rfl⟩
  by_cases feed : c = '\n'
  · subst feed
    exact .inl ⟨'n', rfl, by decide, fun _ => rfl⟩
  by_cases back : c = '\r'
  · subst back
    exact .inl ⟨'r', rfl, by decide, fun _ => rfl⟩
  by_cases tab : c = '\t'
  · subst tab
    exact .inl ⟨'t', rfl, by decide, fun _ => rfl⟩
  by_cases form : c = '\x0c'
  · subst form
    exact .inl ⟨'f', rfl, by decide, fun _ => rfl⟩
  by_cases delete : c = '\x08'
  · subst delete
    exact .inl ⟨'b', rfl, by decide, fun _ => rfl⟩
  rw [quoteChar, if_neg quote, if_neg backslash, if_neg feed, if_neg back, if_neg tab, if_neg form,
    if_neg delete]
  refine .inr ?_
  by_cases printable : 0x20 ≤ c.toNat ∧ c.toNat < 0x7f
  · rw [if_pos printable]
    exact .inl ⟨rfl, quote, backslash, printable⟩
  rw [if_neg printable]
  refine .inr ?_
  by_cases basic : c.toNat < 0x10000
  · rw [if_pos basic]
    exact .inl ⟨rfl, basic⟩
  · rw [if_neg basic]
    -- Beyond the basic plane the rest of a code point still has at most twenty bits.
    have valid : c.toNat < 0xd800 ∨ 0xdfff < c.toNat ∧ c.toNat < 0x110000 := c.valid
    have same : 0x10000 + (c.toNat - 0x10000) = c.toNat := by omega
    refine .inr ⟨c.toNat - 0x10000, rfl, by omega, ?_⟩
    rw [same, Char.ofNat_toNat]

theorem readQuoted?_quoteChar (n : Nat) (c : Char) (rest : List Char) :
    readQuoted? (n + 1) (quoteChar c ++ rest) =
      (readQuoted? n rest).bind fun (cs, left) => some (c :: cs, left) := by
  rcases quoteChar_cases c with ⟨e, text, -, escape⟩ | ⟨text, notQuote, notBackslash, printable, -⟩ |
    ⟨text, basic⟩ | ⟨k, text, beyond, rfl⟩
  · rw [text, List.cons_append, List.cons_append, List.nil_append, readQuoted?_backslash, escape,
      Option.bind_some]
  · have notControl : ¬c.toNat < 0x20 := by omega
    rw [text, List.singleton_append, readQuoted?, if_neg notQuote, if_neg notBackslash,
      if_neg notControl]
    rfl
  · rw [text, List.cons_append, List.cons_append, readQuoted?_backslash, readEscape?_unit,
      readUnit?_hex4 basic, Option.bind_some]
  · rw [text]
    simp only [List.cons_append, List.append_assoc, readQuoted?_backslash, readEscape?_unit,
      readUnit?_pair beyond, Option.bind_some]

theorem length_le_flatMap_quoteChar (cs : List Char) : cs.length ≤ (cs.flatMap quoteChar).length := by
  induction cs with
  | nil => rfl
  | cons c cs ih =>
    have one : 1 ≤ (quoteChar c).length := by
      rcases quoteChar_cases c with ⟨e, text, -⟩ | ⟨text, -⟩ | ⟨text, -⟩ | ⟨k, text, -⟩ <;> simp [text]
    rw [List.flatMap_cons, List.length_append, List.length_cons]
    omega

theorem isAscii_hex4 (n : Nat) : IsAscii (hex4 n) := by
  have digit : ∀ d < 16, IsAscii [Nat.digitChar d] := by decide
  intro c hc
  obtain ⟨d, hd, rfl⟩ := List.mem_map.1 hc
  refine digit d ?_ _ (by simp)
  simp only [List.mem_cons, List.not_mem_nil, or_false] at hd
  omega

theorem isAscii_quoted (s : String) : IsAscii (quoted s) := by
  have each : ∀ c, IsAscii (quoteChar c) := by
    intro c
    have escape : IsAscii ['\\', 'u'] := by decide
    rcases quoteChar_cases c with ⟨e, text, ascii, -⟩ | ⟨text, -, -, printable⟩ | ⟨text, -⟩ | ⟨k, text, -⟩
    · rw [text]
      exact isAscii_append (show IsAscii ['\\'] by decide) ascii
    · rw [text]
      exact List.forall_mem_singleton.2 (.inr printable)
    · rw [text]
      exact isAscii_append escape (isAscii_hex4 _)
    · rw [text]
      exact isAscii_append (isAscii_append escape (isAscii_hex4 _))
        (isAscii_append escape (isAscii_hex4 _))
  have quote : IsAscii ['"'] := by decide
  have middle : IsAscii (s.toList.flatMap quoteChar) := by
    intro c hc
    obtain ⟨d, -, hc⟩ := List.mem_flatMap.1 hc
    exact each d c hc
  exact isAscii_append (isAscii_append quote middle) quote

theorem quoted_append (s : String) (rest : List Char) :
    quoted s ++ rest = '"' :: (s.toList.flatMap quoteChar ++ '"' :: rest) := by
  simp [quoted]

theorem readQuoted?_flatMap {n : Nat} {cs : List Char} (room : cs.length < n) (rest : List Char) :
    readQuoted? n (cs.flatMap quoteChar ++ '"' :: rest) = some (cs, rest) := by
  induction cs generalizing n with
  | nil =>
    obtain ⟨n, rfl⟩ := Nat.exists_eq_add_of_lt room
    simp [readQuoted?]
  | cons c cs ih =>
    obtain ⟨n, rfl⟩ : ∃ m, n = m + 1 := ⟨n - 1, by omega⟩
    rw [List.length_cons] at room
    rw [List.flatMap_cons, List.append_assoc, readQuoted?_quoteChar, ih (by omega)]
    rfl

end Quoted

section Gaps

variable {layout : Layout} {level : Nat} {c : Char} {cs : List Char}

theorem skipGap_cons (h : isGap c = false) : skipGap (c :: cs) = c :: cs := by
  rw [skipGap, List.dropWhile_cons_of_neg (by simp [h])]

theorem skipGap_breakText (h : isGap c = false) :
    skipGap (breakText layout level ++ c :: cs) = c :: cs := by
  cases layout with
  | line => exact skipGap_cons h
  | indented width =>
    have gap : ∀ d ∈ breakText (.indented width) level, isGap d = true := by
      intro d hd
      rcases List.mem_cons.1 hd with rfl | hd
      · rfl
      · rw [List.eq_of_mem_replicate hd]
        rfl
    rw [skipGap, List.dropWhile_append_of_pos gap]
    exact skipGap_cons h

theorem isAscii_breakText (layout : Layout) (level : Nat) : IsAscii (breakText layout level) := by
  cases layout with
  | line => exact fun _ hc => absurd hc (by simp [breakText])
  | indented width =>
    intro c hc
    rcases List.mem_cons.1 hc with rfl | hc
    · exact .inl rfl
    · rw [List.eq_of_mem_replicate hc]
      exact .inr (by decide)

theorem isAscii_itemGap (layout : Layout) (level : Nat) : IsAscii (itemGap layout level) := by
  cases layout with
  | line => exact show IsAscii [' '] by decide
  | indented width => exact isAscii_breakText (.indented width) level

theorem skipGap_itemGap (h : isGap c = false) : skipGap (itemGap layout level ++ c :: cs) = c :: cs := by
  cases layout with
  | line => exact skipGap_cons h
  | indented width =>
    show skipGap (breakText (.indented width) level ++ c :: cs) = c :: cs
    exact skipGap_breakText h

theorem endsNumber_breakText (h : EndsNumber (c :: cs)) :
    EndsNumber (breakText layout level ++ c :: cs) := by
  cases layout with
  | line => exact h
  | indented width =>
    intro d hd
    obtain rfl : '\n' = d := by simpa [breakText] using hd
    decide

end Gaps

section Values

theorem put_of_not_mem {fields : List (String × Json)} {key : String} (value : Json)
    (h : key ∉ fields.map Prod.fst) : put fields key value = fields ++ [(key, value)] := by
  induction fields with
  | nil => rfl
  | cons f rest ih =>
    simp only [List.map_cons, List.mem_cons, not_or] at h
    rw [put, if_neg (fun same => h.1 same.symm), ih h.2]
    rfl

mutual

/-- A value without fractions in which no object has a key twice. -/
def isPlain : Json → Bool
  | .null => true
  | .bool _ => true
  | .int _ => true
  | .real _ => false
  | .str _ => true
  | .arr items => arePlain items
  | .obj fields => havePlain fields && decide (fields.map Prod.fst).Nodup

def arePlain : List Json → Bool
  | [] => true
  | v :: vs => isPlain v && arePlain vs

def havePlain : List (String × Json) → Bool
  | [] => true
  | (_, v) :: fs => isPlain v && havePlain fs

end

/-- What is written of a value is ASCII and starts with no gap and no closing bracket, and reading gives
the value back in front of whatever follows, if there is room for all that was written. -/
structure ReadsBack (v : Json) : Prop where
  ascii : ∀ layout level rest, IsAscii rest → IsAscii (write layout level v rest)
  first : ∀ layout level rest, ∃ c cs, write layout level v rest = c :: cs ∧ isGap c = false ∧
    c ≠ ']' ∧ rest.length ≤ cs.length
  read : ∀ layout level rest n, EndsNumber rest →
    (write layout level v rest).length ≤ n + rest.length →
    readValue n (write layout level v rest) = .ok (v, rest)

variable {layout : Layout} {level outer n : Nat} {rest : List Char}

theorem ReadsBack.length_lt {v : Json} (h : v.ReadsBack) (layout : Layout) (level : Nat)
    (rest : List Char) : rest.length < (write layout level v rest).length := by
  obtain ⟨c, cs, text, -, -, le⟩ := h.first layout level rest
  rw [text, List.length_cons]
  omega

/-- A value in front of a longer text leaves room for that text. -/
theorem ReadsBack.exists_room {v : Json} (h : v.ReadsBack) {tail : List Char} (ends : EndsNumber tail)
    (longer : rest.length < tail.length)
    (room : (write layout level v tail).length ≤ n + rest.length) :
    ∃ m, n = m + 1 ∧ readValue m (write layout level v tail) = .ok (v, tail) ∧
      tail.length ≤ m + rest.length := by
  have head := h.length_lt layout level tail
  refine ⟨n - 1, by omega, h.read layout level tail (n - 1) ends (by omega), by omega⟩

theorem readValue_quote (n : Nat) (cs : List Char) :
    readValue (n + 1) ('"' :: cs) =
      required (readQuoted? n cs) >>= fun (s, left) => .ok (.str (String.ofList s), left) := rfl

theorem readValue_number (n : Nat) {c : Char} (cs : List Char) (sign : c.isDigit = true ∨ c = '-') :
    readValue (n + 1) (c :: cs) = readNumber (c :: cs) := by
  rcases sign with digit | rfl
  · obtain ⟨k, low, high, rfl⟩ := exists_of_isDigit digit
    interval_cases k <;> rfl
  · rfl

theorem readItems_succ (n : Nat) (cs : List Char) :
    readItems (n + 1) cs = readValue n cs >>= fun (v, rest) =>
      match skipGap rest with
      | ']' :: rest => .ok ([v], rest)
      | ',' :: rest => readItems n (skipGap rest) >>= fun (vs, rest) => .ok (v :: vs, rest)
      | _ => .error .malformed := rfl

theorem readFields_quote (n : Nat) (done : List (String × Json)) (cs : List Char) :
    readFields (n + 1) done ('"' :: cs) = required (readQuoted? n cs) >>= fun (key, rest) =>
      match skipGap rest with
      | ':' :: rest => readValue n (skipGap rest) >>= fun (v, rest) =>
        match skipGap rest with
        | '\x7d' :: rest => .ok (put done (String.ofList key) v, rest)
        | ',' :: rest => readFields n (put done (String.ofList key) v) (skipGap rest)
        | _ => .error .malformed
      | _ => .error .malformed := rfl

theorem readValue_bracket (n : Nat) {text cs : List Char} {c : Char} (start : skipGap text = c :: cs)
    (notBracket : c ≠ ']') :
    readValue (n + 1) ('[' :: text) =
      readItems n (c :: cs) >>= fun (items, left) => .ok (.arr items, left) := by
  simp only [readValue, start]
  split
  · rename_i same
    injection same with same
    exact absurd same notBracket
  · rfl

theorem readValue_brace (n : Nat) {text cs : List Char} (start : skipGap text = '"' :: cs) :
    readValue (n + 1) ('\x7b' :: text) =
      readFields n [] ('"' :: cs) >>= fun (fields, left) => .ok (.obj fields, left) := by
  simp only [readValue, start]
  rfl

/-- Words and integers have the same text in every layout, and reading them needs no further room. -/
theorem readsBack_of_text {v : Json} (c : Char) (cs : List Char)
    (text : ∀ layout level rest, write layout level v rest = c :: (cs ++ rest))
    (ascii : IsAscii (c :: cs)) (notGap : isGap c = false) (notBracket : c ≠ ']')
    (read : ∀ n rest, EndsNumber rest → readValue (n + 1) (c :: (cs ++ rest)) = .ok (v, rest)) :
    v.ReadsBack := by
  refine ⟨fun layout level rest => text layout level rest ▸ isAscii_append ascii,
    fun layout level rest => ⟨c, cs ++ rest, text .., notGap, notBracket, by simp⟩, ?_⟩
  intro layout level rest n ends room
  rw [text, List.length_cons, List.length_append] at room
  obtain ⟨n, rfl⟩ : ∃ m, n = m + 1 := ⟨n - 1, by omega⟩
  rw [text]
  exact read n rest ends

theorem readsBack_null : null.ReadsBack :=
  readsBack_of_text 'n' ['u', 'l', 'l'] (fun _ _ _ => by rw [write]; rfl) (by decide) rfl (by decide)
    fun _ _ _ => rfl

theorem readsBack_bool (b : Bool) : (bool b).ReadsBack := by
  cases b with
  | false =>
    exact readsBack_of_text 'f' ['a', 'l', 's', 'e'] (fun _ _ _ => by rw [write]; rfl) (by decide) rfl
      (by decide) fun _ _ _ => rfl
  | true =>
    exact readsBack_of_text 't' ['r', 'u', 'e'] (fun _ _ _ => by rw [write]; rfl) (by decide) rfl
      (by decide) fun _ _ _ => rfl

theorem readsBack_int {i : Int} (short : (int i).isShort = true) : (int i).ReadsBack := by
  have starts : ∃ c cs, intText i = c :: cs ∧ (c.isDigit = true ∨ c = '-') := by
    cases i with
    | ofNat m =>
      obtain ⟨d, ds, text, digit⟩ := exists_digitText m
      exact ⟨d, ds, text, .inl digit⟩
    | negSucc m => exact ⟨'-', _, rfl, .inr rfl⟩
  obtain ⟨c, cs, text, sign⟩ := starts
  have others : ∀ d : Char, d.isDigit = false → d ≠ '-' → c ≠ d := by
    rintro d notDigit notSign rfl
    rcases sign with digit | rfl
    · rw [notDigit] at digit
      cases digit
    · exact notSign rfl
  refine readsBack_of_text c cs (fun _ _ _ => by rw [write, text]; rfl) (text ▸ isAscii_intText i) ?_
    (others _ rfl (by decide)) ?_
  · simp [isGap, others]
  · intro n rest ends
    have read := readNumber_intText short ends
    rw [text, List.cons_append] at read
    rw [readValue_number n _ sign, read]

theorem readsBack_str (s : String) : (str s).ReadsBack := by
  have long := length_le_flatMap_quoteChar s.toList
  refine ⟨?_, fun layout level rest =>
    ⟨'"', s.toList.flatMap quoteChar ++ '"' :: rest, ?_, rfl, ?_, ?_⟩, ?_⟩
  · intro layout level rest ascii
    rw [write]
    exact isAscii_append (isAscii_quoted s) ascii
  · rw [write, quoted_append]
  · decide
  · rw [List.length_append, List.length_cons]
    omega
  · intro layout level rest n _ room
    rw [write, quoted_append] at room ⊢
    simp only [List.length_cons, List.length_append] at room
    obtain ⟨n, rfl⟩ : ∃ m, n = m + 1 := ⟨n - 1, by omega⟩
    have read := readQuoted?_flatMap (show s.toList.length < n by omega) rest
    simp only [readValue_quote, read, required_some, ok_bind, String.ofList_toList]

theorem length_le_writeItems (layout : Layout) (level : Nat) {vs : List Json}
    (items : ∀ v ∈ vs, v.ReadsBack) (rest : List Char) :
    rest.length ≤ (writeItems layout level vs rest).length := by
  induction vs with
  | nil => rw [writeItems]
  | cons v vs ih =>
    rw [List.forall_mem_cons] at items
    have tail := ih items.2
    have head := items.1.length_lt layout level (writeItems layout level vs rest)
    rw [writeItems, List.length_cons, List.length_append]
    omega

theorem isAscii_writeItems {vs : List Json} (items : ∀ v ∈ vs, v.ReadsBack) (ascii : IsAscii rest) :
    IsAscii (writeItems layout level vs rest) := by
  induction vs with
  | nil => rwa [writeItems]
  | cons v vs ih =>
    rw [List.forall_mem_cons] at items
    rw [writeItems]
    refine isAscii_append (show IsAscii [','] by decide) (isAscii_append (isAscii_itemGap _ _) ?_)
    exact items.1.ascii _ _ _ (ih items.2)

theorem endsNumber_writeItems (vs : List Json) :
    EndsNumber (writeItems layout level vs (breakText layout outer ++ ']' :: rest)) := by
  cases vs with
  | nil =>
    rw [writeItems]
    exact endsNumber_breakText (by simp [EndsNumber])
  | cons v vs =>
    rw [writeItems]
    simp [EndsNumber]

theorem readItems_write {v : Json} {vs : List Json} (items : ∀ w ∈ v :: vs, w.ReadsBack)
    (room : (write layout level v
      (writeItems layout level vs (breakText layout outer ++ ']' :: rest))).length ≤ n + rest.length) :
    readItems n (write layout level v
      (writeItems layout level vs (breakText layout outer ++ ']' :: rest))) = .ok (v :: vs, rest) := by
  induction vs generalizing v n with
  | nil =>
    rw [List.forall_mem_singleton] at items
    have longer : rest.length <
        (writeItems layout level [] (breakText layout outer ++ ']' :: rest)).length := by
      rw [writeItems, List.length_append, List.length_cons]
      omega
    obtain ⟨m, rfl, read, -⟩ := items.exists_room (endsNumber_writeItems []) longer room
    rw [readItems_succ, read, writeItems]
    simp [skipGap_breakText (show isGap ']' = false from rfl)]
  | cons w vs ih =>
    obtain ⟨first, others⟩ := List.forall_mem_cons.1 items
    have longer := length_le_writeItems layout level others (breakText layout outer ++ ']' :: rest)
    rw [List.length_append, List.length_cons] at longer
    obtain ⟨m, rfl, read, left⟩ := first.exists_room (endsNumber_writeItems (w :: vs)) (by omega) room
    obtain ⟨c, cs, text, notGap, -, -⟩ := (others w (by simp)).first layout level
      (writeItems layout level vs (breakText layout outer ++ ']' :: rest))
    rw [writeItems, List.length_cons, List.length_append] at left
    have next := ih (n := m) others (by omega)
    rw [text] at next
    rw [readItems_succ, read, writeItems, text]
    simp [skipGap_cons (show isGap ',' = false from rfl), skipGap_itemGap notGap, next]

theorem length_le_writeFields (layout : Layout) (level : Nat) {fs : List (String × Json)}
    (fields : ∀ f ∈ fs, f.2.ReadsBack) (rest : List Char) :
    rest.length ≤ (writeFields layout level fs rest).length := by
  induction fs with
  | nil => rw [writeFields]
  | cons f fs ih =>
    rw [List.forall_mem_cons] at fields
    have tail := ih fields.2
    have head := fields.1.length_lt layout level (writeFields layout level fs rest)
    rw [writeFields]
    simp only [List.length_cons, List.length_append]
    omega

theorem isAscii_member {k : String} {v : Json} (h : v.ReadsBack) (ascii : IsAscii rest) :
    IsAscii (quoted k ++ (':' :: ' ' :: write layout level v rest)) :=
  isAscii_append (isAscii_quoted k)
    (isAscii_append (show IsAscii [':', ' '] by decide) (h.ascii _ _ _ ascii))

theorem isAscii_writeFields {fs : List (String × Json)} (fields : ∀ f ∈ fs, f.2.ReadsBack)
    (ascii : IsAscii rest) : IsAscii (writeFields layout level fs rest) := by
  induction fs with
  | nil => rwa [writeFields]
  | cons f fs ih =>
    rw [List.forall_mem_cons] at fields
    rw [writeFields]
    refine isAscii_append (show IsAscii [','] by decide) (isAscii_append (isAscii_itemGap _ _) ?_)
    exact isAscii_member fields.1 (ih fields.2)

theorem endsNumber_writeFields (fs : List (String × Json)) :
    EndsNumber (writeFields layout level fs (breakText layout outer ++ '\x7d' :: rest)) := by
  cases fs with
  | nil =>
    rw [writeFields]
    exact endsNumber_breakText (by simp [EndsNumber])
  | cons f fs =>
    rw [writeFields]
    simp [EndsNumber]

theorem readFields_of_readsBack {k : String} {v : Json} (h : v.ReadsBack) {tail : List Char}
    (ends : EndsNumber tail) (longer : rest.length < tail.length)
    (room : (quoted k ++ (':' :: ' ' :: write layout level v tail)).length ≤ n + rest.length) :
    ∃ m, n = m + 1 ∧ tail.length ≤ m + rest.length ∧ ∀ done,
      readFields n done (quoted k ++ (':' :: ' ' :: write layout level v tail)) =
        match skipGap tail with
        | '\x7d' :: rest => .ok (put done k v, rest)
        | ',' :: rest => readFields m (put done k v) (skipGap rest)
        | _ => .error .malformed := by
  have long := length_le_flatMap_quoteChar k.toList
  rw [quoted_append] at room
  simp only [List.length_cons, List.length_append] at room
  have head := h.length_lt layout level tail
  obtain ⟨n, rfl⟩ : ∃ m, n = m + 1 := ⟨n - 1, by omega⟩
  have key := readQuoted?_flatMap (show k.toList.length < n by omega)
    (':' :: ' ' :: write layout level v tail)
  have value := h.read layout level tail n ends (by omega)
  have colon : skipGap (':' :: ' ' :: write layout level v tail) =
      ':' :: ' ' :: write layout level v tail := skipGap_cons rfl
  have gap : skipGap (' ' :: write layout level v tail) = write layout level v tail := by
    obtain ⟨c, cs, text, notGap, -, -⟩ := h.first layout level tail
    rw [text]
    exact skipGap_cons notGap
  refine ⟨n, rfl, by omega, fun done => ?_⟩
  rw [quoted_append, readFields_quote, key]
  simp only [required_some, ok_bind, colon, gap, value, String.ofList_toList]

/-- The members of an object are read one by one and added at the end, since their keys are distinct. -/
theorem readFields_write {k : String} {v : Json} {fs done : List (String × Json)}
    (fields : ∀ f ∈ (k, v) :: fs, f.2.ReadsBack) (distinct : ((done ++ (k, v) :: fs).map Prod.fst).Nodup)
    (room : (quoted k ++ (':' :: ' ' :: write layout level v
      (writeFields layout level fs (breakText layout outer ++ '\x7d' :: rest)))).length ≤
        n + rest.length) :
    readFields n done (quoted k ++ (':' :: ' ' :: write layout level v
      (writeFields layout level fs (breakText layout outer ++ '\x7d' :: rest)))) =
        .ok (done ++ (k, v) :: fs, rest) := by
  induction fs generalizing k v n done with
  | nil =>
    rw [List.forall_mem_singleton] at fields
    have longer : rest.length <
        (writeFields layout level [] (breakText layout outer ++ '\x7d' :: rest)).length := by
      rw [writeFields, List.length_append, List.length_cons]
      omega
    obtain ⟨m, rfl, -, read⟩ := readFields_of_readsBack fields (endsNumber_writeFields []) longer room
    have fresh : k ∉ done.map Prod.fst := by
      simp only [List.map_append, List.nodup_append, List.map_cons, List.map_nil,
        List.mem_singleton] at distinct
      exact fun member => distinct.2.2 k member k rfl rfl
    rw [read, put_of_not_mem v fresh]
    simp [writeFields, skipGap_breakText (show isGap '\x7d' = false from rfl)]
  | cons f fs ih =>
    obtain ⟨first, others⟩ := List.forall_mem_cons.1 fields
    have longer := length_le_writeFields layout level others (breakText layout outer ++ '\x7d' :: rest)
    rw [List.length_append, List.length_cons] at longer
    obtain ⟨m, rfl, left, read⟩ :=
      readFields_of_readsBack first (endsNumber_writeFields (f :: fs)) (by omega) room
    have fresh : k ∉ done.map Prod.fst := by
      rw [List.map_append, List.nodup_append] at distinct
      exact fun member => distinct.2.2 k member k (by simp) rfl
    obtain ⟨key, value⟩ := f
    rw [writeFields, List.length_cons, List.length_append] at left
    have appended : ((done ++ [(k, v)] ++ (key, value) :: fs).map Prod.fst).Nodup := by
      simpa using distinct
    have next := ih (n := m) others appended (by omega)
    rw [quoted_append] at next
    rw [read, put_of_not_mem v fresh, writeFields, quoted_append,
      skipGap_cons (show isGap ',' = false from rfl)]
    simp [skipGap_itemGap (show isGap '"' = false from rfl), next]

theorem readsBack_arr {vs : List Json} (items : ∀ v ∈ vs, v.ReadsBack) : (arr vs).ReadsBack := by
  cases vs with
  | nil =>
    exact readsBack_of_text '[' [']'] (fun _ _ _ => by rw [write]; rfl) (by decide) rfl (by decide)
      fun _ _ _ => rfl
  | cons v vs =>
    obtain ⟨first, others⟩ := List.forall_mem_cons.1 items
    have longer : ∀ layout level rest, rest.length < (write layout (level + 1) v
        (writeItems layout (level + 1) vs (breakText layout level ++ ']' :: rest))).length := by
      intro layout level rest
      have tail := length_le_writeItems layout (level + 1) others (breakText layout level ++ ']' :: rest)
      rw [List.length_append, List.length_cons] at tail
      have head := first.length_lt layout (level + 1)
        (writeItems layout (level + 1) vs (breakText layout level ++ ']' :: rest))
      omega
    refine ⟨?_, fun layout level rest => ⟨'[', _, by rw [write], rfl, by decide, ?_⟩, ?_⟩
    · intro layout level rest ascii
      have close := isAscii_append (isAscii_breakText layout level)
        (isAscii_append (show IsAscii [']'] by decide) ascii)
      rw [write]
      refine isAscii_append (show IsAscii ['['] by decide) (isAscii_append (isAscii_breakText _ _) ?_)
      exact first.ascii _ _ _ (isAscii_writeItems others close)
    · have more := longer layout level rest
      rw [List.length_append]
      omega
    · intro layout level rest n _ room
      have more := longer layout level rest
      rw [write, List.length_cons, List.length_append] at room
      obtain ⟨n, rfl⟩ : ∃ m, n = m + 1 := ⟨n - 1, by omega⟩
      have read : readItems n (write layout (level + 1) v
          (writeItems layout (level + 1) vs (breakText layout level ++ ']' :: rest))) =
            .ok (v :: vs, rest) := readItems_write items (by omega)
      obtain ⟨c, cs, text, notGap, notBracket, -⟩ := first.first layout (level + 1)
        (writeItems layout (level + 1) vs (breakText layout level ++ ']' :: rest))
      rw [text] at read
      rw [write, text, readValue_bracket n (skipGap_breakText notGap) notBracket, read, ok_bind]

theorem readsBack_obj {fs : List (String × Json)} (fields : ∀ f ∈ fs, f.2.ReadsBack)
    (distinct : (fs.map Prod.fst).Nodup) : (obj fs).ReadsBack := by
  cases fs with
  | nil =>
    exact readsBack_of_text '\x7b' ['\x7d'] (fun _ _ _ => by rw [write]; rfl) (by decide) rfl (by decide)
      fun _ _ _ => rfl
  | cons f fs =>
    obtain ⟨k, v⟩ := f
    obtain ⟨(first : v.ReadsBack), others⟩ := List.forall_mem_cons.1 fields
    have longer : ∀ layout level rest, rest.length < (quoted k ++ (':' :: ' ' :: write layout (level + 1) v
        (writeFields layout (level + 1) fs (breakText layout level ++ '\x7d' :: rest)))).length := by
      intro layout level rest
      have tail := length_le_writeFields layout (level + 1) others
        (breakText layout level ++ '\x7d' :: rest)
      rw [List.length_append, List.length_cons] at tail
      have head := first.length_lt layout (level + 1)
        (writeFields layout (level + 1) fs (breakText layout level ++ '\x7d' :: rest))
      simp only [List.length_append, List.length_cons]
      omega
    refine ⟨?_, fun layout level rest => ⟨'\x7b', _, by rw [write], rfl, by decide, ?_⟩, ?_⟩
    · intro layout level rest ascii
      have close := isAscii_append (isAscii_breakText layout level)
        (isAscii_append (show IsAscii ['\x7d'] by decide) ascii)
      rw [write]
      refine isAscii_append (show IsAscii ['\x7b'] by decide) (isAscii_append (isAscii_breakText _ _) ?_)
      exact isAscii_member first (isAscii_writeFields others close)
    · have more := longer layout level rest
      rw [List.length_append]
      omega
    · intro layout level rest n _ room
      have more := longer layout level rest
      rw [write, List.length_cons, List.length_append] at room
      obtain ⟨n, rfl⟩ : ∃ m, n = m + 1 := ⟨n - 1, by omega⟩
      have read : readFields n [] (quoted k ++ (':' :: ' ' :: write layout (level + 1) v
          (writeFields layout (level + 1) fs (breakText layout level ++ '\x7d' :: rest)))) =
            .ok ((k, v) :: fs, rest) := readFields_write fields distinct (by omega)
      rw [quoted_append] at read
      rw [write, quoted_append, readValue_brace n (skipGap_breakText rfl), read, ok_bind]

mutual

theorem readsBack_of_isPlain : (v : Json) → v.isPlain = true → v.isShort = true → v.ReadsBack
  | .null, _, _ => readsBack_null
  | .bool b, _, _ => readsBack_bool b
  | .int _, _, short => readsBack_int short
  | .real _, plain, _ => by cases plain
  | .str s, _, _ => readsBack_str s
  | .arr items, plain, short => by
    rw [isPlain] at plain
    rw [isShort] at short
    exact readsBack_arr (readsBack_of_arePlain items plain short)
  | .obj fields, plain, short => by
    rw [isPlain, Bool.and_eq_true, decide_eq_true_eq] at plain
    rw [isShort] at short
    exact readsBack_obj (readsBack_of_havePlain fields plain.1 short) plain.2
termination_by structural v => v

theorem readsBack_of_arePlain :
    (vs : List Json) → arePlain vs = true → areShort vs = true → ∀ v ∈ vs, v.ReadsBack
  | [], _, _ => by simp
  | v :: vs, plain, short => by
    rw [arePlain, Bool.and_eq_true] at plain
    rw [areShort, Bool.and_eq_true] at short
    exact List.forall_mem_cons.2
      ⟨readsBack_of_isPlain v plain.1 short.1, readsBack_of_arePlain vs plain.2 short.2⟩
termination_by structural vs => vs

theorem readsBack_of_havePlain :
    (fs : List (String × Json)) → havePlain fs = true → haveShort fs = true → ∀ f ∈ fs, f.2.ReadsBack
  | [], _, _ => by simp
  | (k, v) :: fs, plain, short => by
    rw [havePlain, Bool.and_eq_true] at plain
    rw [haveShort, Bool.and_eq_true] at short
    exact List.forall_mem_cons.2
      ⟨readsBack_of_isPlain v plain.1 short.1, readsBack_of_havePlain fs plain.2 short.2⟩
termination_by structural fs => fs

end

end Values

end PugComponents.Json

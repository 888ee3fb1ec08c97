import PugComponents.Script.Lexical
import PugComponents.Script.Tables
import Mathlib.Data.List.TakeWhile

/-! How pieces of a script are spelled: a fixed word or sign by itself, a word and a number as far as their
forms reach in the text. Neither contains a sign that separates the entries of a pattern or parts of them. -/

namespace PugComponents.Script

/-- A piece is spelled as its token tells. Nothing is said about the tokens that stand in literals and about
those without text. -/
def Token.Spells (t : Token) (text : List Char) : Prop :=
  match t with
  | .text s => text = s.toList
  | .word => ∃ cs : List Char, text = cs.take (wordLength cs)
  | .number => ∃ cs : List Char, text = cs.take (numberLength cs)
  | _ => True

def Starts (A : Char → Prop) (n : Nat) (cs : List Char) : Prop := ∀ c ∈ cs.take n, A c

namespace Starts

variable {A : Char → Prop} {m n : Nat} {c : Char} {cs : List Char}

@[simp] theorem zero : Starts A 0 cs := by simp [Starts]

@[simp] theorem nil : Starts A n [] := by simp [Starts]

theorem cons (first : A c) (next : Starts A n cs) : Starts A (n + 1) (c :: cs) :=
  List.forall_mem_cons.2 ⟨first, next⟩

theorem one_add (first : A c) (next : Starts A n cs) : Starts A (1 + n) (c :: cs) := by
  rw [Nat.add_comm]
  exact next.cons first

theorem add (first : Starts A m cs) (next : Starts A n (cs.drop m)) : Starts A (m + n) cs := by
  rw [Starts, List.take_add]
  exact List.forall_mem_append.2 ⟨first, next⟩

theorem mono {B : Char → Prop} (h : Starts A n cs) (le : ∀ c, A c → B c) : Starts B n cs :=
  fun c hc => le c (h c hc)

end Starts

/-- Characters that a word can contain, those of its escapes included. -/
def isWordChar (c : Char) : Bool := isWordPart c || c == '\\' || c == '\x7b' || c == '\x7d'

section Words

theorem starts_countWhile (p : Char → Bool) (cs : List Char) : Starts (p · = true) (countWhile p cs) cs := by
  intro c hc
  rw [countWhile, ← List.prefix_iff_eq_take.1 (List.takeWhile_prefix p)] at hc
  exact List.mem_takeWhile_imp hc

theorem toNat_of_isHex {c : Char} (h : isHex c = true) :
    (48 ≤ c.toNat ∧ c.toNat ≤ 57) ∨ (97 ≤ c.toNat ∧ c.toNat ≤ 102) ∨ (65 ≤ c.toNat ∧ c.toNat ≤ 70) := by
  simp only [isHex, Bool.or_eq_true, Bool.and_eq_true, decide_eq_true_eq, Char.le_def,
    UInt32.le_iff_toNat_le] at h
  rcases h with (digit | small) | capital
  · exact .inl (Char.isDigit_iff_toNat.1 digit)
  · exact .inr (.inl small)
  · exact .inr (.inr capital)

theorem isWordChar_of_isHex {c : Char} (h : isHex c = true) : isWordChar c = true := by
  have range := toNat_of_isHex h
  have part : isWordPart c = true := by
    simp [isWordPart, isSpace, Text.inRanges, spaceTable, signTable]
    omega
  rw [isWordChar, part, Bool.true_or, Bool.true_or, Bool.true_or]

theorem starts_codePoint {cs : List Char} {n : Nat} (h : codePointLength? cs = some n) :
    Starts (isWordChar · = true) n cs := by
  unfold codePointLength? at h
  split at h
  · rename_i cs
    dsimp only at h
    split at h
    · cases h
    · rename_i closed
      obtain rfl := Option.some.inj h
      simp only [Bool.or_eq_true, decide_eq_true_eq, bne_iff_ne, not_or, ne_eq, not_not] at closed
      obtain ⟨rest, behind⟩ := List.head?_eq_some_iff.1 closed.2
      have digits := (starts_countWhile isHex cs).mono fun _ => isWordChar_of_isHex
      refine .cons (by decide) (digits.add ?_)
      rw [behind]
      exact .cons (by decide) .zero
  · rename_i a b c d rest _
    split at h
    · rename_i hex
      obtain rfl := Option.some.inj h
      have all : ∀ e ∈ [a, b, c, d], isWordChar e = true := fun e he =>
        isWordChar_of_isHex (List.all_eq_true.1 hex e he)
      exact all
    · cases h
  · cases h

theorem starts_wordLengthFrom (inside : Nat) (isFirst : Bool) (cs : List Char)
    (known : Starts (isWordChar · = true) inside cs) :
    Starts (isWordChar · = true) (wordLengthFrom inside isFirst cs) cs := by
  fun_induction wordLengthFrom inside isFirst cs with
  | case1 => simp
  | case2 inside isFirst c cs ih =>
    obtain ⟨first, others⟩ := List.forall_mem_cons.1 known
    exact .one_add first (ih others)
  | case3 isFirst c cs part ih =>
    have first : isWordPart c = true := (Bool.and_eq_true_iff.1 part).1
    exact .one_add (by simp [isWordChar, first]) (ih .zero)
  | case4 isFirst c cs _ escape n found ih =>
    simp only [Bool.and_eq_true, decide_eq_true_eq, beq_iff_eq] at escape
    obtain ⟨rfl, marked⟩ := escape
    obtain ⟨rest, rfl⟩ := List.head?_eq_some_iff.1 marked
    exact .one_add (by decide) (ih (.cons (by decide) (starts_codePoint found)))
  | case5 => simp
  | case6 => simp

end Words

def isNumberChar (c : Char) : Bool :=
  isHex c || ['x', 'X', 'o', 'O', 'n', '_', '.', '+', '-'].contains c

section Numbers

variable {cs : List Char}

theorem isNumberChar_of_isHex {c : Char} (h : isHex c = true) : isNumberChar c = true := by
  rw [isNumberChar, h, Bool.true_or]

theorem isNumberChar_of_isDigit {c : Char} (h : c.isDigit = true) : isNumberChar c = true :=
  isNumberChar_of_isHex (by rw [isHex, h, Bool.true_or, Bool.true_or])

theorem isHex_of_isOctal {c : Char} (h : isOctal c = true) : isHex c = true := by
  simp only [isOctal, Bool.and_eq_true, decide_eq_true_eq, Char.le_def, UInt32.le_iff_toNat_le] at h
  have digit : c.isDigit = true := Char.isDigit_iff_toNat.2 ⟨h.1, h.2.trans (by decide)⟩
  simp [isHex, digit]

theorem starts_digitsFrom {p : Char → Bool} (known : ∀ c, p c = true → isNumberChar c = true)
    (cs : List Char) :
    Starts (isNumberChar · = true) (digitsFrom p cs) cs := by
  induction cs with
  | nil => simp
  | cons c cs ih =>
    rw [digitsFrom]
    split
    · rename_i digit
      refine .one_add ?_ ih
      simp only [Bool.or_eq_true, Bool.and_eq_true, decide_eq_true_eq] at digit
      rcases digit with digit | ⟨rfl, -⟩
      · exact known c digit
      · decide
    · exact .zero

theorem starts_digitsLength {p : Char → Bool} (known : ∀ c, p c = true → isNumberChar c = true)
    (cs : List Char) : Starts (isNumberChar · = true) (digitsLength p cs) cs := by
  rw [digitsLength]
  split
  · exact starts_digitsFrom known cs
  · exact .zero

theorem starts_decimals (cs : List Char) : Starts (isNumberChar · = true) (digitsLength Char.isDigit cs) cs :=
  starts_digitsLength (fun _ => isNumberChar_of_isDigit) cs

theorem starts_exponentLength (cs : List Char) : Starts (isNumberChar · = true) (exponentLength cs) cs := by
  cases cs with
  | nil => simp [exponentLength]
  | cons e cs =>
    rw [exponentLength]
    split
    · rename_i marked
      have first : isNumberChar e = true := by
        simp only [Bool.or_eq_true, decide_eq_true_eq] at marked
        rcases marked with rfl | rfl <;> decide
      have signed : Starts (isNumberChar · = true)
          (if (cs.head? == some '-' || cs.head? == some '+') = true then 1 else 0) cs := by
        split
        · rename_i sign
          simp only [Bool.or_eq_true, beq_iff_eq] at sign
          rcases sign with sign | sign
          all_goals
            obtain ⟨rest, rfl⟩ := List.head?_eq_some_iff.1 sign
            exact .cons (by decide) .zero
        · exact .zero
      dsimp only
      generalize (if (cs.head? == some '-' || cs.head? == some '+') = true then 1 else 0) = sign at signed ⊢
      split
      · exact .zero
      · rw [Nat.add_assoc]
        exact .one_add first (signed.add (starts_decimals _))
    · exact .zero

theorem starts_based {b : Char} {n : Nat} (first : n ≠ 0 → isNumberChar b = true)
    (digits : Starts (isNumberChar · = true) n cs) :
    Starts (isNumberChar · = true)
      (if n = 0 then 0 else if (cs.drop n).head? == some 'n' then n + 2 else n + 1) (b :: cs) := by
  split
  · exact .zero
  · rename_i some'
    split
    · rename_i big
      obtain ⟨rest, behind⟩ := List.head?_eq_some_iff.1 (beq_iff_eq.1 big)
      refine .cons (first some') (digits.add ?_)
      rw [behind]
      exact .cons (by decide) .zero
    · exact digits.cons (first some')

theorem starts_basedLength (cs : List Char) : Starts (isNumberChar · = true) (basedLength cs) cs := by
  cases cs with
  | nil => simp [basedLength]
  | cons b cs =>
    rw [basedLength]
    refine starts_based (fun some' => ?_) ?_
    · have marked : b = 'x' ∨ b = 'X' ∨ b = 'b' ∨ b = 'B' ∨ b = 'o' ∨ b = 'O' := by
        by_contra none
        simp only [not_or] at none
        simp [none] at some'
      rcases marked with rfl | rfl | rfl | rfl | rfl | rfl <;> decide
    · split
      · exact starts_digitsLength (fun _ => isNumberChar_of_isHex) cs
      · split
        · refine starts_digitsLength (fun c bit => ?_) cs
          simp only [Bool.or_eq_true, beq_iff_eq] at bit
          rcases bit with rfl | rfl <;> decide
        · split
          · refine starts_digitsLength (fun c octal => ?_) cs
            exact isNumberChar_of_isHex (isHex_of_isOctal octal)
          · exact .zero

theorem starts_fraction {before : Nat} (rest : List Char) (whole : Starts (isNumberChar · = true) before cs)
    (behind : cs.drop before = '.' :: rest) : Starts (isNumberChar · = true)
      (if before + digitsLength Char.isDigit rest = 0 then 0
        else before + 1 + digitsLength Char.isDigit rest +
          exponentLength (rest.drop (digitsLength Char.isDigit rest))) cs := by
  split
  · exact .zero
  · rw [Nat.add_assoc, Nat.add_assoc]
    refine whole.add ?_
    rw [behind]
    exact .one_add (by decide) ((starts_decimals rest).add (starts_exponentLength _))

theorem starts_decimalLength (cs : List Char) : Starts (isNumberChar · = true) (decimalLength cs) cs := by
  have whole := starts_decimals cs
  rw [decimalLength]
  dsimp only
  split
  · rename_i rest behind
    split
    · exact .zero
    · refine whole.add ?_
      rw [behind]
      exact .cons (by decide) .zero
  · rename_i rest behind
    split
    · exact starts_fraction rest whole behind
    · exact whole
  · split
    · exact .zero
    · split
      · exact whole.add (starts_exponentLength _)
      · exact whole

theorem starts_numberLength (cs : List Char) : Starts (isNumberChar · = true) (numberLength cs) cs := by
  rw [numberLength]
  split
  · rename_i zero
    obtain ⟨rest, rfl⟩ := List.head?_eq_some_iff.1 (beq_iff_eq.1 zero)
    split
    · exact starts_decimalLength _
    · exact .cons (by decide) (starts_basedLength rest)
  · exact starts_decimalLength cs

theorem numberLength_point (cs : List Char) : numberLength ('.' :: cs) =
    if digitsLength Char.isDigit cs = 0 then 0
    else 1 + digitsLength Char.isDigit cs + exponentLength (cs.drop (digitsLength Char.isDigit cs)) := by
  have nothing : digitsLength Char.isDigit ('.' :: cs) = 0 := rfl
  simp [numberLength, decimalLength, nothing, takesFraction]

theorem head_of_digitsLength {p : Char → Bool} {c : Char} (some' : digitsLength p (c :: cs) ≠ 0) :
    p c = true := by
  by_contra none
  simp [digitsLength, none] at some'

end Numbers

namespace Token

variable {text : List Char}

def isWordlike : Token → Bool
  | .word => true
  | .text s => s.toList.all isWordChar
  | _ => false

theorem Spells.forall_isWordChar {t : Token} (spells : t.Spells text) (wordlike : t.isWordlike = true) :
    ∀ c ∈ text, isWordChar c = true := by
  cases t with
  | text s =>
    obtain rfl : text = s.toList := spells
    exact List.all_eq_true.1 wordlike
  | word =>
    obtain ⟨cs, rfl⟩ := spells
    exact starts_wordLengthFrom 0 true cs .zero
  | _ => cases wordlike

theorem Spells.forall_isNumberChar (spells : Token.number.Spells text) :
    ∀ c ∈ text, isNumberChar c = true := by
  obtain ⟨cs, rfl⟩ := spells
  exact starts_numberLength cs

theorem Spells.exists_digit (spells : Token.number.Spells ('.' :: text)) :
    ∃ d ∈ text.head?, d.isDigit = true := by
  obtain ⟨cs, same⟩ := spells
  cases cs with
  | nil => simp at same
  | cons c cs =>
    have length : numberLength (c :: cs) ≠ 0 := by
      intro zero
      simp [zero] at same
    obtain ⟨n, length⟩ := Nat.exists_eq_succ_of_ne_zero length
    rw [length, List.take_succ_cons] at same
    obtain ⟨rfl, rfl⟩ := List.cons_eq_cons.1 same
    rw [numberLength_point] at length
    split at length
    · cases length
    · rename_i digits
      cases cs with
      | nil => simp [digitsLength] at digits
      | cons d cs =>
        obtain ⟨m, rfl⟩ : ∃ m, n = m + 1 := ⟨n - 1, by omega⟩
        exact ⟨d, rfl, head_of_digitsLength digits⟩

end Token

/-- A piece with the number of a token is spelled as the token tells. It is not unfolded, since the tables of
a grammar are large. -/
@[irreducible] def Tables.Spells (g : Tables) (token : Nat) (text : List Char) : Prop :=
  (g.tokens.getD token .ending).Spells text

theorem Tables.spells_iff {g : Tables} {token : Nat} {t : Token} (known : g.tokens.getD token .ending = t)
    {text : List Char} : g.Spells token text ↔ t.Spells text := by
  unfold Tables.Spells
  rw [known]

structure Tables.IsSpelled (g : Tables) : Prop where
  signs : ∀ s ∈ g.signs, g.tokens.getD s.2 .ending = .text (String.ofList s.1)
  words : ∀ w ∈ g.words, g.tokens.getD w.2 .ending = .text w.1

end PugComponents.Script

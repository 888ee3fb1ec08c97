import PugComponents.Attributes.Bindings
import PugComponents.Script.TextScan
import PugComponents.Text.Blank
import Mathlib.Data.List.TakeWhile

/-! Characters of names are no white space. -/

namespace PugComponents

variable {c : Char}

theorem toNat_of_isAlpha (h : c.isAlpha = true) : 'A'.toNat ≤ c.toNat ∧ c.toNat ≤ 'z'.toNat := by
  rcases (Bool.or_eq_true _ _).mp h with upper | lower
  · have within : 'A'.val ≤ c.val ∧ c.val ≤ 'Z'.val := of_decide_eq_true upper
    rw [UInt32.le_iff_toNat_le, UInt32.le_iff_toNat_le] at within
    exact ⟨within.1, within.2.trans (by decide)⟩
  · have within : 'a'.val ≤ c.val ∧ c.val ≤ 'z'.val :=
      ((Bool.and_eq_true _ _).mp lower).imp of_decide_eq_true of_decide_eq_true
    rw [UInt32.le_iff_toNat_le, UInt32.le_iff_toNat_le] at within
    exact ⟨(by decide : 'A'.toNat ≤ 'a'.toNat).trans within.1, within.2⟩

theorem isBlank_eq_false_of_nameChar (h : (isNameLetter c || c.isDigit) = true) :
    Text.isBlank c = false := by
  have range : '$'.toNat ≤ c.toNat ∧ c.toNat ≤ 'z'.toNat := by
    simp only [isNameLetter, Bool.or_eq_true, beq_iff_eq] at h
    rcases h with ((alpha | rfl) | rfl) | digit
    · have letter := toNat_of_isAlpha alpha
      exact ⟨(by decide : '$'.toNat ≤ 'A'.toNat).trans letter.1, letter.2⟩
    · decide
    · decide
    · have decimal := Char.isDigit_iff_toNat.1 digit
      exact ⟨(by decide : '$'.toNat ≤ '0'.toNat).trans decimal.1, decimal.2.trans (by decide)⟩
  simp only [Char.reduceToNat] at range
  simp [Text.isBlank, Text.inRanges, Text.blankTable]
  omega

namespace Script.TextScan

theorem isBlank_eq_false_of_isInitial (h : isInitial c = true) : Text.isBlank c = false :=
  isBlank_eq_false_of_nameChar (by rw [show isNameLetter c = true from h, Bool.true_or])

theorem isFurther_of_isInitial (h : isInitial c = true) : isFurther c = true := by
  simp only [isInitial, Bool.or_eq_true, beq_iff_eq] at h
  rcases h with (alpha | rfl) | rfl
  · have letter := toNat_of_isAlpha alpha
    have ascii : c.toNat < 128 := letter.2.trans_lt (by decide)
    simp [isFurther, Text.isWord, ascii, Char.isAlphanum, alpha]
  · decide
  · decide

end Script.TextScan

end PugComponents

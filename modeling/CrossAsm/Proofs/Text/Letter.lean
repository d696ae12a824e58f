import CrossAsm.Text.Cursor
import Mathlib

/-! The classes of characters that words are made of, by code point. -/

namespace CrossAsm.Text

theorem eq_iff_toNat {a b : Char} : a = b ↔ a.toNat = b.toNat :=
  ⟨fun same => same ▸ rfl, fun same => Char.ext (UInt32.toNat_inj.mp same)⟩

theorem isAlpha_iff (c : Char) :
    c.isAlpha = true ↔ (65 ≤ c.toNat ∧ c.toNat ≤ 90) ∨ (97 ≤ c.toNat ∧ c.toNat ≤ 122) := by
  simp [Char.isAlpha, Char.isUpper, Char.isLower, UInt32.le_iff_toNat_le]

theorem isDigit_iff (c : Char) : c.isDigit = true ↔ 48 ≤ c.toNat ∧ c.toNat ≤ 57 := by
  simp [Char.isDigit, UInt32.le_iff_toNat_le]

/-- What holds of the ten digits holds of a digit. -/
theorem isDigit_induction {P : Char → Prop} (each : ∀ n : Fin 10, P (Char.ofNat (48 + n)))
    {c : Char} (digit : c.isDigit = true) : P c := by
  rw [isDigit_iff] at digit
  have known : Char.ofNat (48 + (⟨c.toNat - 48, by omega⟩ : Fin 10)) = c := by
    simp [show 48 + (c.toNat - 48) = c.toNat by omega]
  rw [← known]
  exact each _

theorem isAlphanum_iff (c : Char) : c.isAlphanum = true ↔
    (65 ≤ c.toNat ∧ c.toNat ≤ 90) ∨ (97 ≤ c.toNat ∧ c.toNat ≤ 122) ∨
      (48 ≤ c.toNat ∧ c.toNat ≤ 57) := by
  simp only [Char.isAlphanum, Bool.or_eq_true, isAlpha_iff, isDigit_iff]
  omega

theorem isIdentChar_iff (c : Char) : isIdentChar c = true ↔
    (65 ≤ c.toNat ∧ c.toNat ≤ 90) ∨ (97 ≤ c.toNat ∧ c.toNat ≤ 122) ∨
      (48 ≤ c.toNat ∧ c.toNat ≤ 57) ∨ c.toNat = 95 ∨ c.toNat = 46 := by
  have underscore : c = '_' ↔ c.toNat = 95 := eq_iff_toNat
  have dot : c = '.' ↔ c.toNat = 46 := eq_iff_toNat
  simp only [isIdentChar, Bool.or_eq_true, beq_iff_eq, isAlphanum_iff, underscore, dot]
  omega

/-- Letter case does not decide whether a character belongs to a word. -/
theorem isIdentChar_toUpper (c : Char) : isIdentChar c.toUpper = isIdentChar c := by
  by_cases lower : c.isLower
  · have alpha : c.isAlpha = true := by simp [Char.isAlpha, lower]
    have upper : c.toUpper.isAlpha = true := by simp [alpha]
    simp [isIdentChar, Char.isAlphanum, alpha, upper]
  · rw [Char.toUpper_eq_of_not_isLower lower]

theorem isIdentChar_toLower (c : Char) : isIdentChar c.toLower = isIdentChar c := by
  rw [← isIdentChar_toUpper, Char.toUpper_toLower_eq_toUpper, isIdentChar_toUpper]

theorem isIdentStart_toLower (c : Char) : isIdentStart c.toLower = isIdentStart c := by
  by_cases upper : c.isUpper
  · have alpha : c.isAlpha = true := by simp [Char.isAlpha, upper]
    have lower : c.toLower.isAlpha = true := by simp [alpha]
    simp [isIdentStart, alpha, lower]
  · rw [Char.toLower_eq_of_not_isUpper upper]

theorem upper_eq_iff (s : String) : upper s = s ↔ ∀ c ∈ s.toList, c.toUpper = c := by
  rw [upper, ← String.toList_inj, String.toList_ofList]
  nth_rewrite 2 [← List.map_id s.toList]
  exact List.map_inj_left

theorem upper_upper (s : String) : upper (upper s) = upper s := by
  simp [upper, Function.comp_def]

theorem upper_lower (s : String) : upper (lower s) = upper s := by
  simp [upper, lower, Function.comp_def]

end CrossAsm.Text

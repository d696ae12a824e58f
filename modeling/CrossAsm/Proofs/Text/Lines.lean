import CrossAsm.Proofs.Line
import CrossAsm.Text.Lines

/-! Texts that stay on one line. Numbers, words and operands are written without control characters,
so lines put together from them come apart again at the line ends between them. -/

namespace CrossAsm

open Text

/-- A text without control characters, so without a line end. -/
def Text.Plain (cs : List Char) : Prop := ∀ ch ∈ cs, 0x20 ≤ ch.toNat

namespace Text

@[simp] theorem plain_nil : Plain [] := by simp [Plain]

@[simp] theorem plain_cons {ch : Char} {cs : List Char} :
    Plain (ch :: cs) ↔ 0x20 ≤ ch.toNat ∧ Plain cs := by
  simp [Plain]

@[simp] theorem plain_append {a b : List Char} : Plain (a ++ b) ↔ Plain a ∧ Plain b := by
  simp [Plain, or_imp, forall_and]

theorem plain_of_isIdentChar {cs : List Char} (ident : ∀ ch ∈ cs, isIdentChar ch = true) :
    Plain cs := by
  intro ch member
  have range := (isIdentChar_iff ch).mp (ident ch member)
  omega

theorem Spells.plain {radix n : Nat} {cs : List Char} (spelled : Spells radix cs n) : Plain cs :=
  plain_of_isIdentChar fun ch member => isIdentChar_of_isDigitOf ch (spelled.digits ch member)

@[simp] theorem plain_decimal (n : Nat) : Plain (decimal n).toList := (spells_decimal n).plain

@[simp] theorem plain_decimalInt (i : Int) : Plain (decimalInt i).toList := by
  unfold decimalInt
  split <;> simp

/-- A letter stays a letter in either case, and any other character stays as it is. -/
theorem le_toUpper {ch : Char} (solid : 0x20 ≤ ch.toNat) : 0x20 ≤ ch.toUpper.toNat := by
  by_cases lower : ch.isLower
  · have letter : ch.toUpper.isAlpha = true := by simp [Char.isAlpha, lower]
    rw [isAlpha_iff] at letter
    omega
  · rwa [Char.toUpper_eq_of_not_isLower lower]

theorem le_toLower {ch : Char} (solid : 0x20 ≤ ch.toNat) : 0x20 ≤ ch.toLower.toNat := by
  by_cases upper : ch.isUpper
  · have letter : ch.toLower.isAlpha = true := by simp [Char.isAlpha, upper]
    rw [isAlpha_iff] at letter
    omega
  · rwa [Char.toLower_eq_of_not_isUpper upper]

end Text

@[simp] theorem Dialect.plain_hex (d : Dialect) (n width : Nat) : Plain (d.hex n width).toList := by
  have upper := (spells_hexUpper width n).plain
  have lower := (spells_hexLower width n).plain
  cases d with
  | intel =>
    unfold hex
    dsimp only
    split <;> simp [upper]
  | motorola | texas => simp [hex, upper]
  | national => simp [hex, lower]

@[simp] theorem Dialect.plain_signed (d : Dialect) (i : Int) : Plain (d.signed i).toList := by
  unfold signed
  repeat' split
  all_goals simp

namespace Rendering

variable (r : Rendering)

theorem plain_case {word : String} (plain : Plain word.toList) : Plain (r.case word).toList := by
  unfold Rendering.case
  split
  · simpa [lower, Plain] using fun ch member => le_toLower (plain ch member)
  · simpa [upper, Plain] using fun ch member => le_toUpper (plain ch member)

@[simp] theorem plain_imm (v : Int) (bytes : Nat) : Plain (r.imm v bytes).toList :=
  Dialect.plain_hex _ _ _

@[simp] theorem plain_num (v : Int) : Plain (r.num v).toList := Dialect.plain_signed _ _

theorem plain_place (none : r.symbols = ∅) (address : UInt32) : Plain (r.place address).toList := by
  rw [r.place_no_symbols none]
  exact Dialect.plain_hex _ _ _

theorem plain_target (none : r.symbols = ∅) (v : Int) : Plain (r.target v).toList := by
  have here : 0x20 ≤ r.config.dialect.locationSymbol.toNat := by
    cases r.config.dialect <;> decide
  unfold target
  split
  · dsimp only
    repeat' split
    all_goals simp [here]
  · exact r.plain_place none _

end Rendering

namespace Machine

theorem plain_commaJoined {texts : List (List Char)} (plain : ∀ text ∈ texts, Plain text) :
    Plain (commaJoined texts) := by
  induction texts with
  | nil => simp [commaJoined]
  | cons text more ih =>
    have rest := ih fun other member => plain other (by simp [member])
    cases more with
    | nil => simpa [commaJoined] using plain
    | cons next more => simp [commaJoined, plain text (by simp), rest]

/-- A line is plain if all it is put together from is. -/
theorem plain_lineOf {name : String} {texts : List String} (plain : Plain name.toList)
    (operands : ∀ text ∈ texts, Plain text.toList) : Plain (lineOf name texts).toList := by
  unfold lineOf
  split
  · exact plain
  · have joined : Plain (",".intercalate texts).toList := by
      rw [toList_intercalate_comma]
      exact plain_commaJoined (by simpa using operands)
    simp only [String.toList_append, plain_append]
    exact ⟨⟨plain, by simp⟩, joined⟩

end Machine

/-! ### Splitting at line ends -/

namespace Text

/-- A character that ends no line belongs to the line behind it. -/
theorem splitLines_cons {ch : Char} (solid : 0x20 ≤ ch.toNat) (rest : List Char) :
    splitLines (ch :: rest) = match splitLines rest with
      | [] => [[ch]]
      | line :: lines => (ch :: line) :: lines := by
  apply splitLines.eq_4
  · rintro rfl
    exact absurd solid (by decide)
  · rintro _ rfl
    exact absurd solid (by decide)

/-- What stands in front of a line end is a line. -/
theorem splitLines_append {line : List Char} (plain : Plain line) (rest : List Char) :
    splitLines (line ++ '\n' :: rest) = line :: splitLines rest := by
  induction line with
  | nil => simp [splitLines]
  | cons ch line ih =>
    obtain ⟨solid, later⟩ := plain_cons.mp plain
    rw [List.cons_append, splitLines_cons solid, ih later]

/-- A text without a line end is one line. -/
theorem splitLines_plain {line : List Char} (plain : Plain line) (filled : line ≠ []) :
    splitLines line = [line] := by
  induction line with
  | nil => exact absurd rfl filled
  | cons ch line ih =>
    obtain ⟨solid, later⟩ := plain_cons.mp plain
    rw [splitLines_cons solid]
    cases line with
    | nil => rfl
    -- The rest is one line by induction, and the character is put in front of it.
    | cons next line => rw [ih later (by simp)]

/-- Texts of one line each, put together with line ends between them, are the lines of the whole. -/
theorem lines_intercalate {texts : List String} (plain : ∀ text ∈ texts, Plain text.toList)
    (filled : ∀ text ∈ texts, text.toList ≠ []) : lines ("\n".intercalate texts) = texts := by
  induction texts with
  | nil => rfl
  | cons text more ih =>
    have rest := ih (fun other member => plain other (by simp [member]))
      fun other member => filled other (by simp [member])
    cases more with
    | nil => simp [lines, splitLines_plain (plain text (by simp)) (filled text (by simp))]
    | cons next more =>
      rw [String.intercalate_cons_cons, lines]
      have joined : (text ++ "\n" ++ "\n".intercalate (next :: more)).toList =
          text.toList ++ '\n' :: ("\n".intercalate (next :: more)).toList := by simp
      rw [joined, splitLines_append (plain text (by simp)), List.map_cons, String.ofList_toList]
      exact congrArg (text :: ·) rest

end Text

end CrossAsm

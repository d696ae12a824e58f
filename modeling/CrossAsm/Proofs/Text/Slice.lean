import CrossAsm.Proofs.Text.Forward
import Mathlib

/-! Text by the bytes of its UTF-8 form. A slice is cut out of a text at two bytes, which have to
be between characters. A cursor stands in a line if its position is the length of what is behind
it, so that it can cut out of the line whatever it moves over. -/

namespace CrossAsm

namespace Text

/-- The text between two bytes, if neither of them is inside a character. -/
def slice? (text : String) (start stop : Nat) : Option String :=
  if start ≤ stop ∧ String.Pos.Raw.IsValid text ⟨start⟩ ∧ String.Pos.Raw.IsValid text ⟨stop⟩ then
    some (String.Pos.Raw.extract text ⟨start⟩ ⟨stop⟩)
  else none

theorem utf8Length_eq (cs : List Char) : utf8Length cs = String.utf8Len cs := by
  induction cs with
  | nil => rfl
  | cons ch cs ih => rw [utf8Length, ih, String.utf8Len_cons, Nat.add_comm]

@[simp] theorem utf8Length_toList (text : String) : utf8Length text.toList = text.utf8ByteSize := by
  rw [utf8Length_eq, String.utf8Len_toList]

@[simp] theorem utf8ByteSize_ofList (cs : List Char) :
    (String.ofList cs).utf8ByteSize = utf8Length cs := by
  rw [utf8Length_eq, String.utf8ByteSize_ofList]

/-- The bytes between characters are those behind the beginnings of the text. -/
theorem isValid_iff {text : String} {pos : Nat} : String.Pos.Raw.IsValid text ⟨pos⟩ ↔
    ∃ behind ahead, text.toList = behind ++ ahead ∧ pos = utf8Length behind := by
  rw [String.Pos.Raw.isValid_iff_exists_append]
  constructor
  · rintro ⟨first, second, rfl, same⟩
    refine ⟨first.toList, second.toList, String.toList_append, ?_⟩
    rw [utf8Length_toList]
    exact congrArg String.Pos.Raw.byteIdx same
  · rintro ⟨behind, ahead, split, rfl⟩
    refine ⟨String.ofList behind, String.ofList ahead, ?_, ?_⟩
    · rw [← String.ofList_append, ← split, String.ofList_toList]
    · rw [utf8Length_eq, String.rawEndPos_ofList]

theorem slice?_append {text : String} {behind inside ahead : List Char}
    (split : text.toList = behind ++ inside ++ ahead) :
    slice? text (utf8Length behind) (utf8Length behind + utf8Length inside) =
      some (String.ofList inside) := by
  have start : String.Pos.Raw.IsValid text ⟨utf8Length behind⟩ :=
    isValid_iff.mpr ⟨behind, inside ++ ahead, by rw [split, List.append_assoc], rfl⟩
  have stop : String.Pos.Raw.IsValid text ⟨utf8Length behind + utf8Length inside⟩ :=
    isValid_iff.mpr ⟨behind ++ inside, ahead, split, (utf8Length_append _ _).symm⟩
  have cut := String.extract_of_valid behind inside ahead
  rw [← split, String.ofList_toList, ← utf8Length_eq, ← utf8Length_eq] at cut
  rw [slice?, if_pos ⟨Nat.le_add_right _ _, start, stop⟩, cut]

/-- A slice from the beginning of a text. -/
theorem slice?_zero (inside ahead : List Char) :
    slice? (String.ofList (inside ++ ahead)) 0 (utf8Length inside) =
      some (String.ofList inside) := by
  have cut := @slice?_append (String.ofList (inside ++ ahead)) [] inside ahead (by simp)
  simpa [utf8Length] using cut

/-- A slice up to the end of a text. -/
theorem slice?_end (behind inside : List Char) :
    let text := String.ofList (behind ++ inside)
    slice? text (utf8Length behind) text.utf8ByteSize = some (String.ofList inside) := by
  intro text
  have size : text.utf8ByteSize = utf8Length behind + utf8Length inside := by
    rw [utf8ByteSize_ofList, utf8Length_append]
  rw [size]
  exact @slice?_append text behind inside [] (by simp [text])

end Text

namespace Cursor

open Text

/-- The cursor is in the line, with the text behind it as long as its position says. -/
def Within (line : String) (c : Cursor) : Prop :=
  ∃ behind, line.toList = behind ++ c.rest ∧ c.pos = utf8Length behind

theorem within_start (line : String) : Within line (start line) := ⟨[], rfl, rfl⟩

namespace Within

variable {line : String} {c d : Cursor} (within : Within line c)

include within

theorem isValid : String.Pos.Raw.IsValid line ⟨c.pos⟩ := by
  obtain ⟨behind, split, pos⟩ := within
  exact isValid_iff.mpr ⟨behind, c.rest, split, pos⟩

theorem pos_add : c.pos + utf8Length c.rest = line.utf8ByteSize := by
  obtain ⟨behind, split, pos⟩ := within
  rw [pos, ← utf8Length_append, ← split, utf8Length_toList]

theorem of_reaches (reaches : c.Reaches d) : Within line d := by
  obtain ⟨behind, split, pos⟩ := within
  obtain ⟨taken, ahead, later⟩ := reaches
  refine ⟨behind ++ taken, by rw [split, ahead, List.append_assoc], ?_⟩
  rw [later, pos, utf8Length_append]

theorem slice?_rest : slice? line c.pos line.utf8ByteSize = some (String.ofList c.rest) := by
  obtain ⟨behind, split, pos⟩ := within
  have cut := slice?_end behind c.rest
  rwa [← split, String.ofList_toList, ← pos] at cut

/-- What a cursor moves over can be cut out of the line. -/
theorem slice?_taken {taken : List Char} (ahead : c.rest = taken ++ d.rest)
    (later : d.pos = c.pos + utf8Length taken) :
    slice? line c.pos d.pos = some (String.ofList taken) := by
  obtain ⟨behind, split, pos⟩ := within
  rw [later, pos]
  apply slice?_append
  rw [split, ahead, List.append_assoc]

end Within

/-! ### Returning to a position -/

theorem seekFrom_append (behind ahead : List Char) (start : Nat) :
    seekFrom start (behind ++ ahead) (start + utf8Length behind) =
      ⟨start + utf8Length behind, ahead⟩ := by
  induction behind generalizing start with
  | nil => cases ahead <;> simp [seekFrom, utf8Length]
  | cons ch behind ih =>
    have size := ch.utf8Size_pos
    rw [List.cons_append, seekFrom, if_neg (by rw [utf8Length]; omega), utf8Length, ← Nat.add_assoc]
    exact ih (start + ch.utf8Size)

theorem seekFrom_beyond (text : List Char) {start offset : Nat}
    (beyond : start + utf8Length text ≤ offset) :
    seekFrom start text offset = ⟨start + utf8Length text, []⟩ := by
  induction text generalizing start with
  | nil => rfl
  | cons ch text ih =>
    have size := ch.utf8Size_pos
    rw [utf8Length] at beyond ⊢
    rw [seekFrom, if_neg (by omega), ih (by omega), Nat.add_assoc]

/-- A cursor can return to where it was. -/
theorem Within.seek_pos {line : String} {c : Cursor} (within : Within line c) :
    seek line c.pos = c := by
  obtain ⟨behind, split, pos⟩ := within
  have back := seekFrom_append behind c.rest 0
  rw [Nat.zero_add, ← pos] at back
  rw [seek, split, back]

theorem seek_beyond {line : String} {pos : Nat} (beyond : line.utf8ByteSize ≤ pos) :
    seek line pos = ⟨line.utf8ByteSize, []⟩ := by
  rw [seek, seekFrom_beyond line.toList (by rwa [Nat.zero_add, utf8Length_toList]), Nat.zero_add,
    utf8Length_toList]

theorem within_end (line : String) : Within line ⟨line.utf8ByteSize, []⟩ :=
  ⟨line.toList, (List.append_nil _).symm, (utf8Length_toList line).symm⟩

end Cursor

end CrossAsm

import CrossAsm.Source.Program
import Mathlib.Data.List.GetD

/-! The image of a program, byte by byte. A line is copied over what earlier lines left, into a
buffer that is first made long enough for it; so the last line that reaches a place decides the byte
there, and a place that no line reaches is zero. -/

namespace CrossAsm.Program

/-! ### One line -/

section Overlay

variable (image : List UInt8) (offset : Nat) (bytes : List UInt8)

theorem length_overlay :
    (overlay image offset bytes).length = max image.length (offset + bytes.length) := by
  simp only [overlay, List.rightpad, List.length_append, List.length_take, List.length_replicate,
    List.length_drop]
  omega

/-- Writing is copying into a buffer that has been made long enough. -/
theorem overlay_eq_copy :
    overlay image offset bytes =
      (image.rightpad (offset + bytes.length) 0).take offset ++ bytes ++
        (image.rightpad (offset + bytes.length) 0).drop (offset + bytes.length) := by
  have front : (image.rightpad (offset + bytes.length) 0).take offset =
      (image.take offset).rightpad offset 0 := by
    simp only [List.rightpad, List.take_append, List.take_replicate, List.length_take]
    congr 2
    omega
  have back : (image.rightpad (offset + bytes.length) 0).drop (offset + bytes.length) =
      image.drop (offset + bytes.length) := by
    simp [List.rightpad, List.drop_append]
  rw [overlay, front, back]

/-- A byte is the one just written, where there is one, and else what it was. What is new is
zero. -/
theorem getD_overlay (i : Nat) :
    (overlay image offset bytes).getD i 0 =
      if offset ≤ i ∧ i < offset + bytes.length then bytes.getD (i - offset) 0
      else image.getD i 0 := by
  have padded : ((image.take offset).rightpad offset 0).length = offset := by
    simp only [List.rightpad, List.length_append, List.length_take, List.length_replicate]
    omega
  have written :
      ((image.take offset).rightpad offset 0 ++ bytes).length = offset + bytes.length := by
    rw [List.length_append, padded]
  rw [overlay]
  by_cases behind : offset + bytes.length ≤ i
  · rw [if_neg (by omega), List.getD_append_right _ _ _ _ (by omega), written]
    simp only [List.getD_eq_getElem?_getD, List.getElem?_drop, Nat.add_sub_of_le behind]
  · rw [List.getD_append _ _ _ _ (by omega)]
    by_cases inside : offset ≤ i
    · rw [if_pos (by omega), List.getD_append_right _ _ _ _ (by omega), padded]
    · rw [if_neg (by omega), List.getD_append _ _ _ _ (by omega)]
      -- the bytes in front of the line are kept, and the way there is filled
      simp only [List.rightpad, List.getD_eq_getElem?_getD, List.getElem?_append,
        List.getElem?_take, List.getElem?_replicate, List.length_take]
      grind

end Overlay

/-! ### Where the lines go -/

section Lines

variable (p : Program)

/-- The index in the image at which a line begins. -/
def offset (l : Line) : Nat := (l.address.toNat - p.start.toNat) * p.cellBytes

/-- The index behind the last byte of a line. -/
def stop (l : Line) : Nat := p.offset l + l.bytes.length

/-- Does the line lay down the byte at this index? -/
def Reaches (l : Line) (i : Nat) : Prop := p.offset l ≤ i ∧ i < p.stop l

/-- The image with one more line. -/
def write (image : List UInt8) (l : Line) : List UInt8 := overlay image (p.offset l) l.bytes

theorem offset_eq {l : Line} (above : ¬l.address < p.start) :
    (l.address - p.start).toNat * p.cellBytes = p.offset l := by
  rw [offset, UInt32.toNat_sub_of_le _ _ (UInt32.not_lt.mp above)]

/-- Lines are written in order, unless one is below the start: the first such is reported. -/
theorem place_eq_write (image : List UInt8) (lines : List Line) :
    place p.start p.cellBytes image lines =
      match lines.find? (·.address < p.start) with
      | some l => .error (.belowStart l.number l.address p.start)
      | none => .ok (lines.foldl p.write image) := by
  induction lines generalizing image with
  | nil => rfl
  | cons l lines ih =>
    -- a line below the start ends the run, and any other is written before the rest
    by_cases below : l.address < p.start
    · simp [place, below]
    · simp only [place, below, if_false, ih, p.offset_eq below, decide_false, List.find?_cons,
        List.foldl_cons, write]

theorem place_of_above {lines : List Line} (above : ∀ l ∈ lines, ¬l.address < p.start)
    (image : List UInt8) :
    place p.start p.cellBytes image lines = .ok (lines.foldl p.write image) := by
  have none : lines.find? (·.address < p.start) = none := by simpa using above
  rw [place_eq_write, none]

theorem length_written (image : List UInt8) (lines : List Line) :
    (lines.foldl p.write image).length = (lines.map p.stop).foldl max image.length := by
  induction lines generalizing image with
  | nil => rfl
  | cons l lines ih =>
    simp only [List.foldl_cons, List.map_cons, ih, write, length_overlay, stop]

/-- Lines that do not reach an index leave the byte there. -/
theorem getD_of_unreached {lines : List Line} {i : Nat} (apart : ∀ l ∈ lines, ¬p.Reaches l i)
    (image : List UInt8) : (lines.foldl p.write image).getD i 0 = image.getD i 0 := by
  induction lines generalizing image with
  | nil => rfl
  | cons l lines ih =>
    have here : ¬(p.offset l ≤ i ∧ i < p.offset l + l.bytes.length) := apart l List.mem_cons_self
    rw [List.foldl_cons, ih fun later member => apart later (List.mem_cons_of_mem l member), write,
      getD_overlay, if_neg here]

/-- The last line that reaches an index decides the byte there. -/
theorem getD_of_reached (before : List Line) {after : List Line} {l : Line} {i : Nat}
    (reaches : p.Reaches l i) (last : ∀ later ∈ after, ¬p.Reaches later i) (image : List UInt8) :
    ((before ++ l :: after).foldl p.write image).getD i 0 = l.bytes.getD (i - p.offset l) 0 := by
  have here : p.offset l ≤ i ∧ i < p.offset l + l.bytes.length := reaches
  rw [List.foldl_append, List.foldl_cons, p.getD_of_unreached last, write, getD_overlay,
    if_pos here]

end Lines

/-! ### The whole image -/

section Image

variable {p : Program} {img : List UInt8}

theorem image_eq_error {e : SourceError} (failed : p.image = .error e) :
    ∃ before l after, p.lines = before ++ l :: after ∧ (∀ k ∈ before, p.start ≤ k.address) ∧
      l.address < p.start ∧ e = .belowStart l.number l.address p.start := by
  rw [image, place_eq_write] at failed
  split at failed
  next l found =>
    obtain ⟨below, before, after, split, above⟩ := List.find?_eq_some_iff_append.mp found
    refine ⟨before, l, after, split, ?_, by simpa using below, (Except.error.inj failed).symm⟩
    simpa using above
  · simp at failed

theorem image_eq_ok (laid : p.image = .ok img) :
    (∀ l ∈ p.lines, ¬l.address < p.start) ∧ img = p.lines.foldl p.write [] := by
  rw [image, place_eq_write] at laid
  split at laid
  · simp at laid
  next found => exact ⟨by simpa using found, (Except.ok.inj laid).symm⟩

theorem foldl_max_eq (sizes : List Nat) : sizes.foldl max 0 = sizes.max?.getD 0 := by
  cases sizes with
  | nil => rfl
  | cons n sizes => rw [List.max?_cons', List.foldl_cons, Nat.zero_max, Option.getD_some]

theorem length_image (laid : p.image = .ok img) :
    img.length = (p.lines.map p.stop).max?.getD 0 := by
  rw [(image_eq_ok laid).2, length_written, ← foldl_max_eq, List.length_nil]

theorem stop_le_length (laid : p.image = .ok img) {l : Line} (member : l ∈ p.lines) :
    p.stop l ≤ img.length := by
  rw [length_image laid]
  exact List.le_max?_getD_of_mem (List.mem_map_of_mem member)

theorem getElem?_of_reached (laid : p.image = .ok img) {before after : List Line} {l : Line}
    (split : p.lines = before ++ l :: after) {i : Nat} (reaches : p.Reaches l i)
    (last : ∀ later ∈ after, ¬p.Reaches later i) : img[i]? = l.bytes[i - p.offset l]? := by
  have within : i < img.length :=
    Nat.lt_of_lt_of_le reaches.2 (stop_le_length laid (by simp [split]))
  have inside : i - p.offset l < l.bytes.length := by
    obtain ⟨low, high⟩ := reaches
    rw [stop] at high
    omega
  have byte := p.getD_of_reached before reaches last []
  rw [← split, ← (image_eq_ok laid).2] at byte
  rw [List.getElem?_eq_getElem within, List.getElem?_eq_getElem inside,
    ← List.getD_eq_getElem _ 0 within, ← List.getD_eq_getElem _ 0 inside, byte]

theorem getElem?_of_unreached (laid : p.image = .ok img) {i : Nat} (within : i < img.length)
    (apart : ∀ l ∈ p.lines, ¬p.Reaches l i) : img[i]? = some 0 := by
  have byte := p.getD_of_unreached apart []
  rw [← (image_eq_ok laid).2] at byte
  rw [List.getElem?_eq_getElem within, ← List.getD_eq_getElem _ 0 within, byte]
  rfl

/-- Each line is copied into the image of those before it, once that is long enough. -/
theorem exists_copy (laid : p.image = .ok img) {before after : List Line} {l : Line}
    (split : p.lines = before ++ l :: after) :
    ∃ out, place p.start p.cellBytes [] before = .ok out ∧
      let grown := out.rightpad (p.stop l) 0
      p.stop l ≤ grown.length ∧ place p.start p.cellBytes [] (before ++ [l]) =
        .ok (grown.take (p.offset l) ++ l.bytes ++ grown.drop (p.stop l)) := by
  -- there is an image, so this line and those before it are not below the start
  have above := (image_eq_ok laid).1
  rw [split] at above
  have earlier : ∀ k ∈ before, ¬k.address < p.start := fun k member => above k (by simp [member])
  have upto : ∀ k ∈ before ++ [l], ¬k.address < p.start := by
    intro k member
    rcases List.mem_append.mp member with member | here
    · exact earlier k member
    · exact above k (by simp [List.mem_singleton.mp here])
  refine ⟨before.foldl p.write [], p.place_of_above earlier [], ?_, ?_⟩
  · simp only [List.rightpad, List.length_append, List.length_replicate]
    omega
  · rw [p.place_of_above upto [], List.foldl_append, List.foldl_cons, List.foldl_nil, write,
      overlay_eq_copy]
    rfl

end Image

/-- The image is exactly what the lines lay down. There is none only if a line is below the start,
and the first such is reported. Otherwise it ends with the line that ends last; each byte is that of
the last line that reaches it, and zero if none does; and no line is copied past the end of the
buffer. -/
theorem image_exact (p : Program) :
    ((∃ e, p.image = .error e) ↔ ∃ l ∈ p.lines, l.address < p.start) ∧
      (∀ e, p.image = .error e → ∃ before l after, p.lines = before ++ l :: after ∧
        (∀ k ∈ before, p.start ≤ k.address) ∧ l.address < p.start ∧
        e = .belowStart l.number l.address p.start) ∧
      ∀ img, p.image = .ok img →
        img.length = (p.lines.map p.stop).max?.getD 0 ∧
        (∀ before l after, p.lines = before ++ l :: after → ∀ i, p.Reaches l i →
          (∀ later ∈ after, ¬p.Reaches later i) → img[i]? = l.bytes[i - p.offset l]?) ∧
        (∀ i < img.length, (∀ l ∈ p.lines, ¬p.Reaches l i) → img[i]? = some 0) ∧
        ∀ before l after, p.lines = before ++ l :: after → ∃ out,
          place p.start p.cellBytes [] before = .ok out ∧
          let grown := out.rightpad (p.stop l) 0
          p.stop l ≤ grown.length ∧ place p.start p.cellBytes [] (before ++ [l]) =
            .ok (grown.take (p.offset l) ++ l.bytes ++ grown.drop (p.stop l)) := by
  refine ⟨⟨?_, ?_⟩, fun _ => image_eq_error, fun img laid => ⟨length_image laid, ?_, ?_, ?_⟩⟩
  · rintro ⟨e, failed⟩
    obtain ⟨before, l, after, split, -, below, -⟩ := image_eq_error failed
    exact ⟨l, by simp [split], below⟩
  · rintro ⟨l, member, below⟩
    cases laid : p.image with
    | error e => exact ⟨e, rfl⟩
    | ok img => exact absurd below ((image_eq_ok laid).1 l member)
  · intro before l after split i reaches last
    exact getElem?_of_reached laid split reaches last
  · intro i within apart
    exact getElem?_of_unreached laid within apart
  · intro before l after split
    exact exists_copy laid split

/-- A later line overwrites an earlier one, and a line without bytes makes the image longer too. -/
example :
    let lines : List Line :=
      [⟨1, 0x102, [1, 2, 3], none⟩, ⟨2, 0x103, [9], none⟩, ⟨3, 0x106, [], none⟩]
    image ⟨0x100, 1, lines, ∅⟩ = .ok [0, 0, 1, 9, 3, 0] := by rfl

end CrossAsm.Program

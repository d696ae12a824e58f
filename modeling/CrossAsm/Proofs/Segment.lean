import CrossAsm.Image
import CrossAsm.Proofs.Bytes

/-! The addresses of a segment. What stands behind a segment is an address again, so the end of one
that reaches to the top of the address space is zero, and no address is below it. A reader does not
look at the end: it can be sent to every cell that was loaded. -/

namespace CrossAsm

namespace Segment

variable {s : Segment} {address : UInt32}

/-- The addresses of the loaded cells, as numbers without a bound. -/
def Spans (s : Segment) (address : UInt32) : Prop :=
  s.base.toNat ≤ address.toNat ∧ address.toNat < s.base.toNat + s.cells

instance (s : Segment) (address : UInt32) : Decidable (s.Spans address) :=
  inferInstanceAs (Decidable (_ ∧ _))

/-- A segment holds the addresses from its base up to its end, as far as that is an address. -/
theorem contains_iff : s.contains address = true ↔
    s.base.toNat ≤ address.toNat ∧ address.toNat < (s.base.toNat + s.cells) % 0x100000000 := by
  simp only [contains, Bool.and_eq_true, decide_eq_true_eq, UInt32.le_iff_toNat_le,
    UInt32.lt_iff_toNat_lt, stop, UInt32.toNat_add, UInt32.toNat_ofNat']
  omega

/-- Only cells that were loaded are held, however many there are. -/
theorem spans_of_contains (inside : s.contains address = true) : s.Spans address := by
  obtain ⟨low, high⟩ := contains_iff.mp inside
  exact ⟨low, Nat.lt_of_lt_of_le high (Nat.mod_le _ _)⟩

/-! ### Readers -/

section Goto

variable (spans : s.Spans address)

include spans

theorem distance_lt_cells : (address - s.base).toNat < s.cells := by
  obtain ⟨low, high⟩ := spans
  rw [UInt32.toNat_sub_of_le _ _ (UInt32.le_iff_toNat_le.mpr low)]
  omega

/-- A cell that was loaded begins before the bytes end. -/
theorem distance_lt_bytes : (address - s.base).toNat * s.cell.bytes < s.bytes.length := by
  calc (address - s.base).toNat * s.cell.bytes
    _ < s.cells * s.cell.bytes :=
      Nat.mul_lt_mul_of_pos_right (distance_lt_cells spans) s.cell.bytes_pos
    _ ≤ s.bytes.length := Nat.div_mul_le_self _ _

theorem offset_goto :
    (s.memory.goto address).offset = (address - s.base).toNat * s.cell.bytes :=
  Nat.min_eq_left (Nat.le_of_lt (distance_lt_bytes spans))

theorem address_goto : (s.memory.goto address).address = address := by
  have cells : (s.memory.goto address).offset / s.cell.bytes = (address - s.base).toNat := by
    rw [offset_goto spans, Nat.mul_div_cancel _ s.cell.bytes_pos]
  calc (s.memory.goto address).address
    _ = s.base + UInt32.ofNat ((s.memory.goto address).offset / s.cell.bytes) := rfl
    _ = s.base + (address - s.base) := by rw [cells, UInt32.ofNat_toNat]
    _ = address := by rw [UInt32.add_comm, UInt32.sub_add_cancel]

theorem hasNext_goto : (s.memory.goto address).hasNext = true := by
  have ahead : (s.memory.goto address).rest ≠ [] :=
    List.ne_nil_of_length_pos (by
      rw [Memory.goto, Memory.seek, List.length_drop]
      exact Nat.sub_pos_of_lt (distance_lt_bytes spans))
  simpa [Reader.hasNext] using ahead

end Goto

/-! ### Images of one segment -/

/-- In an image of one segment within the address space, exactly the loaded cells are mapped, unless
the segment ends where the address space does: then none is. A reader reaches all of them in either
case. -/
theorem isMapped_iff (s : Segment) (fits : s.base.toNat + s.cells ≤ 0x100000000)
    (address : UInt32) :
    (Image.isMapped ⟨[s]⟩ address = true ↔
        s.Spans address ∧ s.base.toNat + s.cells ≠ 0x100000000) ∧
      (s.Spans address →
        (s.memory.goto address).address = address ∧ (s.memory.goto address).hasNext = true) := by
  have only : Image.isMapped ⟨[s]⟩ address = s.contains address := by
    cases inside : s.contains address <;> simp [Image.isMapped, Image.segmentAt?, inside]
  refine ⟨?_, fun spans => ⟨address_goto spans, hasNext_goto spans⟩⟩
  rw [only]
  constructor
  · intro inside
    refine ⟨spans_of_contains inside, fun top => ?_⟩
    have below := (contains_iff.mp inside).2
    simp [top] at below
  · rintro ⟨⟨low, high⟩, inner⟩
    rw [contains_iff, Nat.mod_eq_of_lt (by omega)]
    exact ⟨low, high⟩

/-- The last two cells of the address space are loaded and can be read, but they are not mapped. -/
theorem isMapped_iff_top :
    let s : Segment := ⟨"rom", 0xFFFFFFFE, [0x01, 0x39], .byte⟩
    s.base.toNat + s.cells ≤ 0x100000000 ∧ s.Spans 0xFFFFFFFF ∧
      Image.isMapped ⟨[s]⟩ 0xFFFFFFFF = false ∧
      (s.memory.goto 0xFFFFFFFF).address = 0xFFFFFFFF ∧ (s.memory.goto 0xFFFFFFFF).hasNext = true := by
  intro s
  have spans : s.Spans 0xFFFFFFFF := by decide
  obtain ⟨mapped, reached⟩ := isMapped_iff s (by decide) 0xFFFFFFFF
  have hidden : ¬Image.isMapped ⟨[s]⟩ 0xFFFFFFFF = true := fun found =>
    (mapped.mp found).2 (by decide)
  exact ⟨by decide, spans, Bool.eq_false_iff.mpr hidden, reached spans⟩

/-- The cells of a segment that ends with the address space are not mapped. -/
theorem top_segment_not_mapped :
    let s : Segment := ⟨"s", 0xFFFFFFFE, [0x01, 0x39], .byte⟩
    s.base.toNat + s.cells ≤ 0x100000000 ∧
      (s.base.toNat ≤ 0xFFFFFFFE ∧ 0xFFFFFFFE < s.base.toNat + s.cells) ∧
      Image.isMapped ⟨[s]⟩ 0xFFFFFFFE = false := by
  decide

end Segment

end CrossAsm

import CrossAsm.Proofs.Source.Image
import CrossAsm.Proofs.Source.Reassembly

/-! Programs at the end of the address space. The last instruction may reach past the end, but as soon
as one begins there it is laid down over earlier ones, and no sweep of the image gives the program
back. -/

namespace CrossAsm

/-- A line that begins past the address space is laid down over earlier ones, so the image stays
shorter than the lines are together. -/
theorem Contiguous.length_place_lt {t : Target} {location start : UInt32} {lines : List Line}
    (contiguous : Contiguous t location lines) {cells : Nat} {image img : List UInt8}
    (located : location = start + UInt32.ofNat cells)
    (room : image.length ≤ cells * t.config.cell.bytes) (some : lines ≠ [])
    (long : 0x100000000 * t.config.cell.bytes ≤
      cells * t.config.cell.bytes + (lines.dropLast.flatMap (·.bytes)).length)
    (placed : Program.place start t.config.cell.bytes image lines = .ok img) :
    img.length < cells * t.config.cell.bytes + (lines.flatMap (·.bytes)).length := by
  induction contiguous generalizing image cells with
  | nil location => exact absurd rfl some
  | @cons l rest stands later ih =>
    have filled := List.length_pos_iff.mpr stands.filled
    obtain ⟨count, length, next⟩ := stands.exists_next located
    have offset : (l.address - start).toNat = cells % 0x100000000 := by
      rw [located, add_sub_cancel_left, UInt32.toNat_ofNat']
    have inside := Nat.mul_le_mul_right t.config.cell.bytes (Nat.mod_le cells 0x100000000)
    rw [Program.place] at placed
    split at placed
    · simp at placed
    · rw [offset] at placed
      rw [List.flatMap_cons, List.length_append]
      rcases eq_or_ne rest [] with rfl | more
      · -- Only the last line is known to begin past the end: there the bound is strict.
        have past : 0x100000000 ≤ cells :=
          Nat.le_of_mul_le_mul_right (by simpa using long) t.config.cell.bytes_pos
        have wraps : cells % 0x100000000 < cells := by omega
        have before := Nat.mul_lt_mul_of_pos_right wraps t.config.cell.bytes_pos
        obtain rfl := Except.ok.inj placed
        rw [Program.length_overlay, List.flatMap_nil, List.length_nil]
        omega
      · rw [List.dropLast_cons_of_ne_nil more, List.flatMap_cons, List.length_append] at long
        have behind := @ih (cells + count) _ next ?_ more ?_ placed
        · rw [Nat.add_mul, ← length] at behind
          omega
        · rw [Program.length_overlay, Nat.add_mul, ← length]
          omega
        · rw [Nat.add_mul, ← length]
          omega

namespace Program

/-- A sweep of the image of a program without directives gives the program back exactly if every line
begins inside the address space. -/
theorem decodeAll_image_iff (t : Target) (text : String) (start : UInt32)
    (code : ∀ s ∈ Statement.ofText text, s.action.isDirective = false) (p : Program)
    (finished : assemble t text start = .ok p) (img : List UInt8) (laid : p.image = .ok img)
    (symbols : Symbols) (style : Style) :
    (t.decodeAll symbols style (Memory.reader ⟨start, img, t.config.cell⟩)).1.map
        (fun d => (d.address, d.bytes, d.fault)) =
      p.lines.map (fun l => (l.address, l.bytes, none)) ↔
    (p.lines.dropLast.flatMap (·.bytes)).length < 0x100000000 * t.config.cell.bytes := by
  obtain ⟨begins, width, passed, clean⟩ := settle_eq_ok finished
  have contiguous := contiguous_of_pass passed clean code
  have first : start = start + UInt32.ofNat 0 := by simp
  rw [Program.image, begins, width] at laid
  constructor
  · intro same
    by_contra long
    have some : p.lines ≠ [] := by
      intro empty
      simp [empty, t.config.cell.bytes_pos] at long
    -- Nothing in the sweep is faulty, so it is all of the image, and its bytes are the lines'.
    have swept : Swept (Memory.reader ⟨start, img, t.config.cell⟩)
        (t.decodeAll symbols style (Memory.reader ⟨start, img, t.config.cell⟩)).1 :=
      (Machine.swept_sweep t.customFollows (fun _ => t.cell_le_opcodeLength) symbols style rfl
        (Nat.le_refl _)).1
    have faultless : ∀ d ∈ (t.decodeAll symbols style (Memory.reader ⟨start, img, t.config.cell⟩)).1,
        d.fault = none := by
      intro d member
      have listed := List.mem_map_of_mem (f := fun d => (d.address, d.bytes, d.fault)) member
      rw [same] at listed
      obtain ⟨l, -, equal⟩ := List.mem_map.mp listed
      exact (congrArg (·.2.2) equal).symm
    have together : p.lines.flatMap (·.bytes) = img := by
      have equal := congrArg (List.flatMap (·.2.1)) same
      rw [List.flatMap_map, List.flatMap_map] at equal
      exact equal.symm.trans (swept.covers_of_clean faultless)
    have lost := contiguous.length_place_lt first (by simp) some (by omega) laid
    rw [together] at lost
    omega
  · intro short
    have image : img = p.lines.flatMap (·.bytes) := by
      simpa using contiguous.place_eq_of_begins first (by simp) (fun _ => by simpa using short) laid
    exact contiguous.sweep_eq rfl (Nat.dvd_zero _) (Memory.address_reader _) image (Nat.le_refl _)
      symbols style

end Program

end CrossAsm

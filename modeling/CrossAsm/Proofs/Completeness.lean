import CrossAsm.Proofs.M6800.Recovery
import CrossAsm.Proofs.Ns32000.Recovery
import CrossAsm.Proofs.Tms32010.Recovery
import CrossAsm.Proofs.Z80.Recovery
import CrossAsm.Target

/-! Every target decodes what it assembles. The bytes of a line are a complete instruction whatever
follows them, also where the line has a fault. -/

namespace CrossAsm.Target

/-- The name under which an instruction of this name with these operands is decoded. -/
def decodedName : (t : Target) → String → List (Operand t.Mode t.Reg) → String
  | mc6800 | mc6801 | hd6301 => M6800.decodedName
  | tms32010 => Tms32010.decodedName
  | z80 | ns32000 => fun name _ => name

theorem customFollows : (t : Target) → t.machine.CustomFollows
  | mc6800 => M6800.customFollows .mc6800
  | mc6801 => M6800.customFollows .mc6801
  | hd6301 => M6800.customFollows .hd6301
  | z80 => Z80.customFollows
  | ns32000 => Ns32000.customFollows
  | tms32010 => Tms32010.customFollows

/-- An opcode takes up a cell at least. -/
theorem cell_le_opcodeLength (t : Target) {hit : Page t.Mode × Entry t.Mode}
    (own : hit ∈ t.machine.ownEntries) :
    t.machine.config.cell.bytes ≤ t.machine.opcodeLength hit.1 := by
  have cells : ∀ page ∈ t.machine.pages, 0 < page.opcodeCells := by cases t <;> decide
  have present : hit.1 ∈ t.machine.pages := by
    obtain ⟨page, listed, entry, _, rfl⟩ : ∃ page ∈ t.machine.pages, ∃ entry ∈ page.entries,
        (page, entry) = hit := by
      simpa [Machine.entries] using (t.machine.mem_ownEntries.mp own).1
    exact listed
  exact Nat.le_mul_of_pos_left _ (cells hit.1 present)

theorem opcodeLength_pos (t : Target) {hit : Page t.Mode × Entry t.Mode}
    (own : hit ∈ t.machine.ownEntries) : 0 < t.machine.opcodeLength hit.1 := by
  have wide : 0 < t.machine.config.cell.bytes := by cases t <;> decide
  exact Nat.lt_of_lt_of_le wide (t.cell_le_opcodeLength own)

section Writes

variable {t : Target} {symbols : Symbols} {line : String} {address : UInt32} {name : String}
  {hit : Page t.Mode × Entry t.Mode} {ops : List (Operand t.Mode t.Reg)}
  (writes : t.machine.Writes symbols line address name hit ops)

include writes

/-- Every line that is read as an instruction leads to an entry that takes all its bytes. Without a
fault it has the name under which the line's instruction is decoded. -/
theorem exists_leadsTo (suffix : List UInt8) :
    let a := t.assemble symbols line address
    ∃ first ∈ t.machine.ownEntries, Machine.isName first.2.name = true ∧
      t.machine.LeadsTo a.bytes suffix address first ∧
      (a.fault = none → first.2.name = t.decodedName hit.2.name ops) := by
  cases t with
  | mc6800 | mc6801 | hd6301 =>
    obtain ⟨first, own, leads, named⟩ := M6800.exists_leadsTo writes suffix
    exact ⟨first, own, M6800.name_of_own own, leads, named⟩
  | tms32010 =>
    obtain ⟨first, own, leads, named⟩ := Tms32010.exists_leadsTo writes suffix
    exact ⟨first, own, Tms32010.name_of_own own, leads, named⟩
  | z80 =>
    exact ⟨hit, writes.own, Z80.name_of_own writes.own, Z80.leadsTo_of_writes writes suffix,
      fun _ => rfl⟩
  | ns32000 =>
    exact ⟨hit, writes.own, Ns32000.name_of_own writes.own, Ns32000.leadsTo_of_writes writes suffix,
      fun _ => rfl⟩

theorem ne_nil_of_writes : (t.assemble symbols line address).bytes ≠ [] := by
  obtain ⟨first, own, -, leads, -⟩ := exists_leadsTo writes []
  exact leads.ne_nil t.customFollows (t.opcodeLength_pos own)

/-- An instruction takes up whole cells. -/
theorem whole_of_writes : t.config.cell.bytes ∣ (t.assemble symbols line address).bytes.length := by
  cases t with
  | tms32010 => exact Tms32010.whole_of_writes writes
  | mc6800 | mc6801 | hd6301 | z80 | ns32000 => exact one_dvd _

end Writes

/-- Every encoding that a target gives is a complete instruction for it: with anything behind them,
the bytes of a line decode without a fault to just these bytes, whether or not the line has a fault
itself. Without one, the mnemonic is that of the line in capitals, or another that stands for it. -/
theorem decode_assembled (t : Target) (symbols : Symbols) (line : String) (address : UInt32)
    (bytes : (t.assemble symbols line address).bytes ≠ []) (suffix : List UInt8) (shown : Symbols)
    (style : Style) :
    let a := t.assemble symbols line address
    let back := t.decode shown style (Memory.reader ⟨address, a.bytes ++ suffix, t.config.cell⟩)
    back.1.fault = none ∧ back.1.bytes = a.bytes ∧ back.2.offset = a.bytes.length ∧
      (a.fault = none → style.lowercase = false → ∃ name after,
        (Cursor.start line).skipSpaces.ident? = some (name, after) ∧ back.1.mnemonic =
          t.decodedName (Text.upper name) (t.machine.parseOperands symbols address after).1) := by
  intro a back
  obtain ⟨name, hit, ops, writes⟩ := Machine.exists_writes bytes
  obtain ⟨after, ident, parsed⟩ := writes.named
  obtain ⟨first, -, proper, leads, named⟩ := exists_leadsTo writes suffix
  rw [writes.same, ← parsed] at named
  let r := Memory.reader ⟨address, a.bytes ++ suffix, t.config.cell⟩
  have place : r.address = address := Memory.address_reader _
  obtain ⟨-, clean, whole, moved, mnemonic⟩ :=
    Machine.decode_of_leadsTo (r := r) (by rw [place]; exact leads) rfl proper shown style
  refine ⟨clean, whole, ?_, fun silent upper => ⟨name, after, ident, ?_⟩⟩
  · have behind : back.2 = r.skip a.bytes.length := moved
    rw [behind]
    simp [r, a, Reader.skip, Memory.reader, Memory.seek]
  · exact (mnemonic upper).trans (named silent)

/-- A mask with one bit clear is decoded as a bit number, and a displacement out of range as one that
is in range. -/
theorem decode_assembled_mask_far :
    let mask := hd6301.assemble ∅ "aim #$FE,$10" 0x8000
    let back := hd6301.decode ∅ {} (Memory.reader ⟨0x8000, mask.bytes ++ [0x39], hd6301.config.cell⟩)
    let far := ns32000.assemble ∅ "MOVB <1000(R0)[R1:W],R2" 0x100
    let near := ns32000.decode ∅ {} (Memory.reader ⟨0x100, far.bytes ++ [0x39], ns32000.config.cell⟩)
    (back.1.mnemonic = "BCLR" ∧ back.1.fault = none ∧ back.1.bytes = mask.bytes) ∧
      (far.fault.isSome = true ∧ near.1.fault = none ∧ near.2.offset = far.bytes.length) := by
  have single := decode_assembled hd6301 ∅ "aim #$FE,$10" 0x8000 (by decide) [0x39] ∅ {}
  have short := decode_assembled ns32000 ∅ "MOVB <1000(R0)[R1:W],R2" 0x100 (by decide) [0x39]
    ∅ {}
  dsimp only
  exact ⟨⟨by decide, single.1, single.2.1⟩, by decide, short.1, short.2.2.1⟩

end CrossAsm.Target

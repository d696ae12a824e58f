import CrossAsm.Proofs.Tms32010.RoundTrip

/-! Addresses outside the address space. A field may hold more than the addresses of its target. The
disassembler reads whatever stands there, the assembler takes only what the target has: anything else
leaves zeros and a fault. -/

namespace CrossAsm

theorem Endian.put_zero (e : Endian) {n : Nat} (short : n ≤ 4) : e.put n 0 = List.replicate n 0 := by
  have zeros (count : Nat) : toLittle count 0 = List.replicate count 0 := by
    induction count with
    | zero => rfl
    | succ count ih =>
      rw [toLittle, ih, List.replicate_succ]
      rfl
  have low : ((0 : Int) % 0x100000000).toNat = 0 := rfl
  rw [put, Nat.min_eq_left short, low]
  cases e with
  | little => exact zeros n
  | big => rw [bytes, zeros, List.reverse_replicate]

namespace Machine

variable {Mode Reg : Type} {m : Machine Mode Reg} {entry : Entry Mode} {slot : Slot Mode}

/-- Of the addresses that fit a field, those of the target are taken. -/
theorem encodeOperand_absolute {width : Width} {n : Nat} {q : Operand Mode Reg}
    (shape : m.shape slot.mode = .absolute width) (sized : width.bytes? entry.size = some n)
    (known : q.undefined = false) (low : 0 ≤ q.value) (high : q.value < twoPow (8 * n)) (d : Draft) :
    m.encodeOperand entry slot q d =
      (d.extend .payload (.number (if q.value < twoPow d.config.addressBits then q.value else 0) n
          d.config.endian) q.column,
        if q.value < twoPow d.config.addressBits then none else some .overflowRange) := by
  have short := Width.bytes?_le sized
  have fits : fitsUnsigned q.value (min (8 * n) d.config.addressBits) = true ↔
      q.value < twoPow d.config.addressBits := by
    rw [fitsUnsigned_iff (by omega)]
    rcases Nat.le_total (8 * n) d.config.addressBits with narrow | narrow
    · -- Nothing that fits the field is too high.
      have below := twoPow_le narrow
      rw [Nat.min_eq_left narrow]
      omega
    · rw [Nat.min_eq_right narrow]
      omega
  simp only [encodeOperand, shape, sized, encodeNumber, known, Bool.false_or, fits,
    Bool.false_eq_true, if_false, Draft.emit]
  split <;> rfl

/-- An address that was read without a fault, and what the assembler makes of it: the bytes it was
read from if the target has such an address, and otherwise zeros and a fault. -/
theorem exists_absolute {width : Width} (shape : m.shape slot.mode = .absolute width)
    (index : Option UInt8) {d : Decoding}
    (clean : (m.decodeOperand entry slot index d).2.fault = none) :
    ∃ (op : Operand Mode Reg) (taken : List UInt8),
      (m.decodeOperand entry slot index d).1 = some op ∧
      (m.decodeOperand entry slot index d).2.bytes = d.bytes ++ taken ∧
      ∀ (q : Operand Mode Reg) (e : Draft), q.value = op.value → q.undefined = false →
        e.config = d.config → ∃ x : Extension, x.stage = .payload ∧
          m.encodeOperand entry slot q e =
            ({ e with extensions := e.extensions ++ [x] },
              if op.value < twoPow d.config.addressBits then none else some .overflowRange) ∧
          ∀ base size, x.render e.config base size =
            (if op.value < twoPow d.config.addressBits then taken
              else List.replicate taken.length 0, none) := by
  obtain ⟨n, sized, enough⟩ := enough_of_number index (.inr shape) clean
  have decoded := decodeOperand_number index (.inr shape) sized enough
  have short := Width.bytes?_le sized
  have count := List.length_take_of_le enough
  have high := d.config.endian.number_lt (d.rest.take n)
  have back := @Endian.put_number d.config.endian (d.rest.take n) (by omega)
  rw [count] at high back
  refine ⟨_, d.rest.take n, by rw [decoded], by rw [decoded]; rfl, ?_⟩
  intro q e value known config
  have written := encodeOperand_absolute shape sized known (by rw [value]; exact Int.natCast_nonneg _)
    (by rw [value]; exact Int.ofNat_lt.mpr high) e
  rw [config, value] at written
  refine ⟨_, rfl, written, fun base size => ?_⟩
  simp only [Extension.render]
  split
  · rw [back]
  · rw [d.config.endian.put_zero short, count]

end Machine

namespace Tms32010

variable {hit : Page Mode × Entry Mode}

/-- A branch is laid down as its opcode word and its address, or zeros if there is no such address. -/
theorem encode_branch (own : hit ∈ machine.ownEntries) (slots : hit.2.slots = [.bare .pma])
    {code word : List UInt8} (two : code.length = 2)
    (covers : hit.2.covers (BitVec.ofNat 32 (Endian.big.number code)) = true)
    (long : word.length = 2) {q : Operand Mode Reg} (known : q.undefined = false)
    (silent : q.fault = none) (value : q.value = Endian.big.number word) (address : UInt32) :
    machine.encode hit.1 hit.2 [q] address =
      { address
        bytes := code ++ if Endian.big.number word < 0x1000 then word else [0, 0]
        fault := if Endian.big.number word < 0x1000 then none
          else some (Cause.overflowRange.located q.column) } := by
  obtain ⟨lead, gap, cells, -⟩ := page_of_own own
  have bound := Endian.big.number_lt word
  rw [long] at bound
  have inside : (Endian.big.number word : Int) < twoPow machine.config.addressBits ↔
      Endian.big.number word < 0x1000 := Int.ofNat_lt
  -- The one piece of the instruction, its address or a zero.
  let stored : Int := if Endian.big.number word < 0x1000 then q.value else 0
  let piece : Piece := { extensions := [⟨.payload, .number stored 2 .big, q.column⟩] }
  have lays (room : Nat) : machine.Lays hit.2 (.bare .pma) q room piece
      (if Endian.big.number word < 0x1000 then none else some .overflowRange) := by
    intro d drafted _
    have shaped : machine.shape (Slot.bare Mode.pma).mode = .absolute .word := rfl
    rw [Machine.encodeOperand_absolute shaped rfl known (by rw [value]; exact Int.natCast_nonneg _)
      (by rw [value]; exact Int.ofNat_lt.mpr bound) d, drafted]
    simp only [value, inside, d.extend_eq_lay (Slot.bare Mode.pma), piece, stored]
    rfl
  have pieces := Pieces.cons (lays hit.1.gap) (.nil (R := machine.Lays hit.2) _)
  have bytes (base : Int) : machine.layout hit.1 hit.2 [(.bare .pma, piece)] base =
      code ++ if Endian.big.number word < 0x1000 then word else [0, 0] := by
    have opcode := Entry.eq_placeAll_of_covers covers
    have small := @Endian.number_lt_word Endian.big code (by omega)
    have first := @Endian.put_number Endian.big code (by omega)
    have second := @Endian.put_number Endian.big word (by omega)
    rw [two] at first
    rw [long, ← value] at second
    have bare (field : BitVec 32) : (Slot.bare Mode.pma).place field = 0#32 :=
      Slot.place_of_width_zero rfl field
    simp only [slots, List.map_cons, List.map_nil, placeAll, bare] at opcode
    have behind : Endian.big.put 2 stored =
        if Endian.big.number word < 0x1000 then word else [0, 0] := by
      simp only [stored]
      split
      · exact second
      · rfl
    simp only [Machine.layout, lead, cells, List.map_cons, List.map_nil, placeAll, bare, opcode,
      BitVec.toNat_ofNat, Nat.mod_eq_of_lt small]
    change [] ++ [] ++ Endian.big.put 2 (Endian.big.number code) ++ [] ++
      (Endian.big.put 2 stored ++ []) = _
    rw [first, behind]
    simp
  have fixed : (machine.draft hit.1 hit.2 address).base
      (machine.layout hit.1 hit.2 [(.bare .pma, piece)]
        ((machine.draft hit.1 hit.2 address).base 4)).length =
      (machine.draft hit.1 hit.2 address).base 4 := by
    rw [bytes]
    split <;> simp [two, long]
  rw [Machine.encode_eq_of_fixed rfl (by rw [cells]; decide) (slots ▸ pieces)
    (by simp [piece, Extension.narrow]) fixed (by simpa using silent), bytes]
  split <;> rfl

/-- An instruction that decodes without a fault is assembled from its text to its own words, except
that a second word which is no program address is refused and becomes zero. -/
theorem assemble_found_eq (style : Style) {r : Reader}
    (found : machine.ownEntries.find? (machine.hits r.rest) = some hit)
    (clean : (machine.finish hit r.rest r.address).fault = none) {bytes : List UInt8}
    (read : (machine.finish hit r.rest r.address).bytes = bytes) :
    let out := machine.assemble ∅ (machine.decode ∅ style r).1.text r.address
    out.bytes = (if Endian.big.number (bytes.drop 2) < 0x1000 then bytes
        else bytes.take 2 ++ [0, 0]) ∧
      out.fault.map (·.cause) =
        if Endian.big.number (bytes.drop 2) < 0x1000 then none else some .overflowRange := by
  intro out
  have own := List.mem_of_find?_eq_some found
  by_cases inWord : ∀ s ∈ hit.2.slots, s.mode ≠ .pma
  · -- Without a second word there is nothing to refuse.
    obtain ⟨d, -, finish, put, -⟩ := exists_word found clean inWord
    have single : bytes.drop 2 = [] := by
      apply List.drop_eq_nil_of_le
      rw [← read, finish, ← put, Endian.length_put]
      exact Nat.min_le_left 2 4
    have low : Endian.big.number (bytes.drop 2) < 0x1000 := by
      rw [single]
      decide
    have same : out = ⟨r.address, bytes, none⟩ :=
      read ▸ assemble_found style found clean (read.symm ▸ low)
    rw [if_pos low, if_pos low, same]
    exact ⟨rfl, rfl⟩
  · obtain ⟨s, member, branch⟩ : ∃ s ∈ hit.2.slots, s.mode = .pma := by simpa using inWord
    have slots := branch_of_own own member branch
    obtain ⟨-, code, tail, two, enough, covers, -, -, words, -⟩ := exists_branch found clean slots
    obtain rfl : code ++ tail.take 2 = bytes := words.symm.trans read
    rw [List.drop_left' two, List.take_left' two]
    apply assemble_branch_induction (P := fun out => out.bytes = _ ∧ out.fault.map (·.cause) = _)
      style found clean slots
    intro q known silent value
    rw [words, List.drop_left' two] at value
    rw [encode_branch own slots two covers (List.length_take_of_le enough) known silent value]
    constructor
    · split <;> rfl
    · split <;> rfl

end Tms32010

/-- The disassembler reads addresses that the assembler refuses: those that fit their field but not
the address space of the target. All others are laid down in the bytes that they were read from. On
the TMS32010 it is the second words of branches from `>1000` on that become zero. -/
theorem Target.absolute_restored_iff_addressable {Mode Reg : Type} (m : Machine Mode Reg)
    (entry : Entry Mode) (slot : Slot Mode) (width : Width) (index : Option UInt8) (d : Decoding)
    (style : Style) (r : Reader) :
    (m.shape slot.mode = .absolute width → (m.decodeOperand entry slot index d).2.fault = none →
      ∃ (op : Operand Mode Reg) (taken : List UInt8),
        (m.decodeOperand entry slot index d).1 = some op ∧
        (m.decodeOperand entry slot index d).2.bytes = d.bytes ++ taken ∧
        ∀ (q : Operand Mode Reg) (e : Draft), q.value = op.value → q.undefined = false →
          e.config = d.config → ∃ x : Extension, x.stage = .payload ∧
            m.encodeOperand entry slot q e =
              ({ e with extensions := e.extensions ++ [x] },
                if op.value < twoPow d.config.addressBits then none else some .overflowRange) ∧
            ∀ base size, x.render e.config base size =
              (if op.value < twoPow d.config.addressBits then taken
                else List.replicate taken.length 0, none)) ∧
      ((tms32010.decode ∅ style r).1.fault = none →
        let bytes := (tms32010.decode ∅ style r).1.bytes
        let out := tms32010.assemble ∅ (tms32010.decode ∅ style r).1.text r.address
        out.bytes = (if Endian.big.number (bytes.drop 2) < 0x1000 then bytes
            else bytes.take 2 ++ [0, 0]) ∧
          out.fault.map (·.cause) =
            if Endian.big.number (bytes.drop 2) < 0x1000 then none else some .overflowRange) := by
  refine ⟨fun shape clean => Machine.exists_absolute shape index clean, ?_⟩
  intro clean
  change (Tms32010.machine.decode ∅ style r).1.fault = none at clean
  obtain ⟨hit, found⟩ := Machine.exists_hit_of_decode clean
  have decoded := Machine.decode_eq ∅ style found
  rw [decoded] at clean
  exact Tms32010.assemble_found_eq style found clean
    (show _ = (Tms32010.machine.decode ∅ style r).1.bytes by rw [decoded])

/-- `CALL >1FF` is restored; the word `>1000` is read as an address and refused as one. -/
theorem Target.absolute_restored_iff_addressable_call :
    let call : Reader := Memory.reader ⟨0x10, [0xF8, 0x00, 0x01, 0xFF], .word⟩
    let slot : Slot Tms32010.Mode := .bare .pma
    let entry : Entry Tms32010.Mode := .of "CALL" 0xF800 [slot]
    let start : Decoding := ⟨Tms32010.config, 0, 0xF800, [], [0xF8, 0x00], [0x10, 0x00], none⟩
    (tms32010.decode ∅ {} call).1.fault = none ∧
      (tms32010.assemble ∅ (tms32010.decode ∅ {} call).1.text call.address).bytes =
        [0xF8, 0x00, 0x01, 0xFF] ∧
      (Tms32010.machine.decodeOperand entry slot none start).2.fault = none ∧
      (Tms32010.machine.encodeOperand entry slot { mode := .imm, value := 0x1000, column := 5 }
        { address := 0, config := Tms32010.config }).2 = some .overflowRange := by
  intro call slot entry start
  have clean : (tms32010.decode ∅ {} call).1.fault = none := by decide
  have readable : (Tms32010.machine.decodeOperand entry slot none start).2.fault = none := by decide
  obtain ⟨field, whole⟩ := absolute_restored_iff_addressable Tms32010.machine entry slot .word none
    start {} call
  obtain ⟨op, taken, read, -, each⟩ := field rfl readable
  obtain rfl : { mode := .pma, value := 0x1000, column := 2 } = op := Option.some.inj read
  obtain ⟨x, -, written, -⟩ := each { mode := .imm, value := 0x1000, column := 5 }
    { address := 0, config := Tms32010.config } rfl rfl rfl
  refine ⟨clean, (whole clean).1.trans (by decide), readable, ?_⟩
  rw [written]
  rfl

/-- `B >1234` is read from memory but cannot be assembled: there is no such program address. -/
theorem Target.refuses_decoded_branch :
    let branch : Reader := Memory.reader ⟨0, [0xF9, 0x00, 0x12, 0x34], .word⟩
    (tms32010.decode ∅ {} branch).1.fault = none ∧
      (tms32010.decode ∅ {} branch).1.text = "B >1234" ∧
      tms32010.assemble ∅ "B >1234" 0 =
        ⟨0, [0xF9, 0x00, 0x00, 0x00], some (Cause.overflowRange.located 2)⟩ := by
  decide

end CrossAsm

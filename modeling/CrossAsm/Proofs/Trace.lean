import CrossAsm.Machine.Decode
import CrossAsm.Proofs.Reading
import CrossAsm.Proofs.Search

/-! The course of decoding an instruction: which operand was read where. Each reading starts where
the one before it stopped, and an instruction without a fault has none in any reading. -/

namespace CrossAsm

variable {Mode Reg : Type}

@[simp] theorem Memory.rest_reader (m : Memory) : m.reader.rest = m.bytes := rfl

@[simp] theorem Memory.address_reader (m : Memory) : m.reader.address = m.base := by
  simp [reader, seek, Reader.address]

/-- Behind whole cells, the address is as many further on. -/
theorem Reader.address_skip_of_dvd {r : Reader} {n : Nat} (inside : n ≤ r.rest.length)
    (whole : r.cell.bytes ∣ n) :
    (r.skip n).address = r.address + UInt32.ofNat (n / r.cell.bytes) := by
  rw [address, address, UInt32.add_assoc, ← UInt32.ofNat_add, ← Nat.add_div_of_dvd_left whole]
  simp [skip, Nat.min_eq_left inside]

/-- A slot, and the state its operand is read from. -/
structure Reading (m : Machine Mode Reg) (entry : Entry Mode) where
  slot : Slot Mode
  index : Option UInt8
  start : Decoding

namespace Reading

variable {m : Machine Mode Reg} {entry : Entry Mode}

def operand (r : Reading m entry) : Option (Operand Mode Reg) :=
  (m.decodeOperand entry r.slot r.index r.start).1

/-- The state behind the operand. -/
def stop (r : Reading m entry) : Decoding := (m.decodeOperand entry r.slot r.index r.start).2

end Reading

namespace Machine

variable (m : Machine Mode Reg) (entry : Entry Mode)

/-- The readings of an instruction's slots, one behind the other. -/
def readings : List (Slot Mode × Option UInt8) → Decoding → List (Reading m entry)
  | [], _ => []
  | (slot, index) :: slots, d =>
    let r : Reading m entry := ⟨slot, index, d⟩
    r :: readings slots r.stop

/-- The state behind the last of some readings. -/
def stopOf : List (Reading m entry) → Decoding → Decoding
  | [], d => d
  | r :: rs, _ => stopOf rs r.stop

theorem decodeSlots_eq (slots : List (Slot Mode × Option UInt8)) (d : Decoding) :
    m.decodeSlots entry slots d =
      ((m.readings entry slots d).filterMap (·.operand),
        m.stopOf entry (m.readings entry slots d) d) := by
  induction slots generalizing d with
  | nil => rfl
  | cons head slots ih =>
    obtain ⟨slot, index⟩ := head
    have rest := ih (m.decodeOperand entry slot index d).2
    simp only [decodeSlots, rest, readings, stopOf, Reading.stop, List.filterMap_cons]
    cases read : (m.decodeOperand entry slot index d).1 <;> simp [Reading.operand, read]

theorem slots_readings (slots : List (Slot Mode × Option UInt8)) (d : Decoding) :
    (m.readings entry slots d).map (fun r => (r.slot, r.index)) = slots := by
  induction slots generalizing d with
  | nil => rfl
  | cons head slots ih => simp [readings, ih]

/-- Reading an operand by the target's own rules only reads on. -/
def CustomFollows : Prop :=
  ∀ entry slot index d, Decoding.Follows d (m.decodeCustom entry slot index d).2

variable {m entry}

theorem registerOperand_follows (slot : Slot Mode) (d : Decoding) : Decoding.Follows d
    (if 0 < slot.width then
      match m.registerOperand slot.mode (slot.read d.opcode) with
      | some r => (r.reg, d)
      | none => (none, d.fail .unknownOperand)
    else (none, d)).2 := by
  split
  · split
    · exact .refl d
    · exact .fail d _
  · exact .refl d

theorem decodeOperand_follows (custom : m.CustomFollows) (slot : Slot Mode) (index : Option UInt8)
    (d : Decoding) : Decoding.Follows d (m.decodeOperand entry slot index d).2 := by
  unfold decodeOperand
  cases m.shape slot.mode with
  | implied => exact .refl d
  | register =>
    dsimp only
    split
    · exact .refl d
    · exact .fail d _
  | embedded signed => exact .refl d
  | bit => exact .refl d
  | immediate width =>
    dsimp only
    split
    · exact .fail d _
    · exact Decoding.readIn_follows d d.config.endian _
  | absolute width =>
    dsimp only
    split
    · exact .fail d _
    · exact Decoding.readIn_follows d d.config.endian _
  | relative width =>
    dsimp only
    split
    · exact .refl d
    · exact Decoding.readIn_follows d d.config.endian _
  | indexed disp signed =>
    dsimp only
    have register := registerOperand_follows (m := m) slot d
    split
    · exact register
    · exact register.trans (Decoding.readDisp_follows _ _)
  | ladder relative => exact Decoding.readLadder_follows d
  | custom => exact custom entry slot index d

theorem stopOf_follows (custom : m.CustomFollows) (slots : List (Slot Mode × Option UInt8))
    (d : Decoding) : Decoding.Follows d (m.stopOf entry (m.readings entry slots d) d) := by
  induction slots generalizing d with
  | nil => exact .refl d
  | cons head slots ih =>
    exact (decodeOperand_follows custom head.1 head.2 d).trans (ih _)

/-- A reading lies between the first state and the last. -/
theorem mem_readings (custom : m.CustomFollows) {slots : List (Slot Mode × Option UInt8)}
    {d : Decoding} {r : Reading m entry} (member : r ∈ m.readings entry slots d) :
    (r.slot, r.index) ∈ slots ∧ Decoding.Follows d r.start ∧
      Decoding.Follows r.stop (m.stopOf entry (m.readings entry slots d) d) := by
  induction slots generalizing d with
  | nil => simp [readings] at member
  | cons head slots ih =>
    have follows : Decoding.Follows d (m.decodeOperand entry head.1 head.2 d).2 :=
      decodeOperand_follows custom head.1 head.2 d
    rcases List.mem_cons.mp member with rfl | later
    · exact ⟨by simp, .refl d, stopOf_follows custom slots _⟩
    · obtain ⟨own, start, stop⟩ := ih later
      exact ⟨by simp [own], follows.trans start, stop⟩

/-! ### Reading by shape -/

theorem Width.bytes?_le {width : Width} {size : Size} {n : Nat}
    (sized : width.bytes? size = some n) : n ≤ 4 := by
  cases width <;> cases size <;> simp_all [Width.bytes?] <;> omega

section Shapes

variable {slot : Slot Mode} (index : Option UInt8) {d : Decoding}

theorem decodeOperand_implied (shape : m.shape slot.mode = .implied) :
    m.decodeOperand entry slot index d =
      (some { mode := slot.mode, column := d.bytes.length }, d) := by
  simp only [decodeOperand, shape]

theorem decodeOperand_register (shape : m.shape slot.mode = .register) {op : Operand Mode Reg}
    (known : m.registerOperand slot.mode (slot.read d.opcode) = some op) :
    m.decodeOperand entry slot index d = (some op, d) := by
  simp only [decodeOperand, shape, known]

theorem decodeOperand_embedded {signed : Bool} (shape : m.shape slot.mode = .embedded signed) :
    m.decodeOperand entry slot index d =
      (some
        { mode := slot.mode
          value := if signed then signExtend (slot.read d.opcode) slot.width
            else slot.read d.opcode
          column := d.bytes.length }, d) := by
  simp only [decodeOperand, shape]

theorem decodeOperand_bit (shape : m.shape slot.mode = .bit) :
    m.decodeOperand entry slot index d =
      (some { mode := slot.mode, value := slot.read d.opcode, column := d.bytes.length }, d) := by
  simp only [decodeOperand, shape]

theorem decodeOperand_number {width : Width} {n : Nat}
    (shape : m.shape slot.mode = .immediate width ∨ m.shape slot.mode = .absolute width)
    (sized : width.bytes? entry.size = some n) (enough : n ≤ d.rest.length) :
    m.decodeOperand entry slot index d =
      (some
        { mode := slot.mode
          value := d.config.endian.number (d.rest.take n)
          column := d.bytes.length }, d.past n) := by
  have number := Decoding.readIn_eq d d.config.endian enough (Width.bytes?_le sized)
  rcases shape with shape | shape <;>
    simp only [decodeOperand, shape, sized, Decoding.read, number]

theorem decodeOperand_relative (shape : m.shape slot.mode = .relative .byte)
    (enough : 1 ≤ d.rest.length) :
    m.decodeOperand entry slot index d =
      (some
        { mode := slot.mode
          value := (d.past 1).target (signExtend (d.config.endian.number (d.rest.take 1)) 8)
          column := d.bytes.length }, d.past 1) := by
  have number := Decoding.readIn_eq d d.config.endian enough (by decide)
  simp only [decodeOperand, shape, Width.bytes?, Decoding.read, number, Nat.mul_one]

theorem decodeOperand_indexed {signed : Bool} (shape : m.shape slot.mode = .indexed .byte signed)
    (bare : slot.width = 0) :
    m.decodeOperand entry slot index d =
      (some
        { mode := slot.mode
          value := if signed then signExtend (d.readDisp 1).1 8 else (d.readDisp 1).1
          column := d.bytes.length }, (d.readDisp 1).2) := by
  simp only [decodeOperand, shape, Width.bytes?, bare, Nat.lt_irrefl, if_false, Nat.mul_one]

/-- A number that is read without a fault is there. -/
theorem enough_of_number {width : Width}
    (shape : m.shape slot.mode = .immediate width ∨ m.shape slot.mode = .absolute width)
    (clean : (m.decodeOperand entry slot index d).2.fault = none) :
    ∃ n, width.bytes? entry.size = some n ∧ n ≤ d.rest.length := by
  cases sized : width.bytes? entry.size with
  | none =>
    rcases shape with shape | shape <;>
    · simp only [decodeOperand, shape, sized] at clean
      exact absurd clean (Decoding.fail_fault_ne_none _ _)
  | some n =>
    refine ⟨n, rfl, ?_⟩
    rcases shape with shape | shape <;>
    · simp only [decodeOperand, shape, sized] at clean
      exact Decoding.enough_of_readIn clean

/-- A number behind the opcode that is read without a fault. -/
theorem exists_number_of_clean {r : Reading m entry} {width : Width}
    (shape : m.shape r.slot.mode = .immediate width ∨ m.shape r.slot.mode = .absolute width)
    (clean : r.stop.fault = none) :
    ∃ n op, width.bytes? entry.size = some n ∧ r.operand = some op ∧ op.mode = r.slot.mode ∧
      0 ≤ op.value ∧ op.value < twoPow (8 * n) := by
  obtain ⟨n, sized, enough⟩ := enough_of_number r.index shape clean
  have decoded : m.decodeOperand entry r.slot r.index r.start = _ :=
    decodeOperand_number r.index shape sized enough
  have bound := r.start.config.endian.number_lt (r.start.rest.take n)
  rw [List.length_take_of_le enough] at bound
  exact ⟨n, _, sized, by rw [Reading.operand, decoded], rfl, by simp, by simpa using bound⟩

/-- A register field that is read without a fault stands for an operand. -/
theorem exists_register_of_clean {r : Reading m entry} (shape : m.shape r.slot.mode = .register)
    (clean : r.stop.fault = none) :
    ∃ op, m.registerOperand r.slot.mode (r.slot.read r.start.opcode) = some op := by
  cases known : m.registerOperand r.slot.mode (r.slot.read r.start.opcode) with
  | some op => exact ⟨op, rfl⟩
  | none =>
    simp only [Reading.stop, decodeOperand, shape, known] at clean
    exact absurd clean (Decoding.fail_fault_ne_none _ _)

/-- A register field is read from the opcode alone. -/
theorem stop_register {r : Reading m entry} (shape : m.shape r.slot.mode = .register)
    (clean : r.stop.fault = none) : r.stop = r.start := by
  obtain ⟨op, known⟩ := exists_register_of_clean shape clean
  exact congrArg Prod.snd (decodeOperand_register r.index shape known)

/-- A number of one or two bytes behind the opcode that is read without a fault. -/
theorem exists_short_of_clean {r : Reading m entry} {width : Width} {n : Nat}
    (sized : width.bytes? entry.size = some n) (short : n ≤ 2)
    (shape : m.shape r.slot.mode = .immediate width ∨ m.shape r.slot.mode = .absolute width)
    (clean : r.stop.fault = none) :
    ∃ op, r.operand = some op ∧ op.mode = r.slot.mode ∧ 0 ≤ op.value ∧
      op.value < twoPow (8 * n) ∧ op.value < 0x10000 ∧
      op.value % twoPow (min (8 * n) 32) = op.value := by
  obtain ⟨count, op, counted, found, mode, low, high⟩ := exists_number_of_clean shape clean
  obtain rfl : n = count := Option.some.inj (sized.symm.trans counted)
  have word : twoPow (8 * n) ≤ 0x10000 := twoPow_le (n := 16) (by omega)
  rw [Nat.min_eq_left (by omega)]
  exact ⟨op, found, mode, low, high, by omega, Int.emod_eq_of_lt low high⟩

/-- A displacement of one byte that is read without a fault. -/
theorem exists_disp_of_clean {r : Reading m entry} {signed : Bool}
    (shape : m.shape r.slot.mode = .indexed .byte signed) (bare : r.slot.width = 0)
    (clean : r.stop.fault = none) :
    ∃ (op : Operand Mode Reg) (byte : UInt8), r.operand = some op ∧ op.mode = r.slot.mode ∧
      op.value = if signed then signExtend byte.toNat 8 else byte.toNat := by
  have decoded : m.decodeOperand entry r.slot r.index r.start = _ :=
    decodeOperand_indexed r.index shape bare
  obtain ⟨byte, number⟩ : ∃ byte : UInt8, (r.start.readDisp 1).1 = byte.toNat := by
    by_cases room : 1 ≤ r.start.gapBytes.length
    · obtain ⟨byte, taken⟩ := List.length_eq_one_iff.mp (List.length_take_of_le room)
      exact ⟨byte, by rw [Decoding.readDisp_gap room (by decide), taken, Endian.number_singleton]⟩
    · have enough : 1 ≤ r.start.rest.length := by
        rw [Reading.stop, decoded, Decoding.readDisp_rest room] at clean
        exact @Decoding.enough_of_readIn r.start r.start.config.endian 1 clean
      obtain ⟨byte, taken⟩ := List.length_eq_one_iff.mp (List.length_take_of_le enough)
      refine ⟨byte, ?_⟩
      rw [Decoding.readDisp_rest room, Decoding.read, Decoding.readIn_eq _ _ enough (by decide),
        taken, Endian.number_singleton]
  exact ⟨_, byte, by rw [Reading.operand, decoded], rfl, by rw [number]⟩

/-- A target one byte away that is read without a fault. -/
theorem exists_target_of_clean {r : Reading m entry}
    (shape : m.shape r.slot.mode = .relative .byte) (clean : r.stop.fault = none) :
    ∃ (op : Operand Mode Reg) (byte : UInt8) (tail : List UInt8), r.start.rest = byte :: tail ∧
      r.stop = r.start.past 1 ∧ r.operand = some op ∧ op.mode = r.slot.mode ∧
      op.value = r.start.config.wrap (r.stop.base + signExtend byte.toNat 8) := by
  have enough : 1 ≤ r.start.rest.length := by
    simp only [Reading.stop, decodeOperand, shape, Width.bytes?] at clean
    exact Decoding.enough_of_readIn clean
  obtain ⟨byte, tail, ahead⟩ := List.exists_cons_of_length_pos enough
  have decoded : m.decodeOperand entry r.slot r.index r.start = _ :=
    decodeOperand_relative r.index shape enough
  have moved : r.stop = r.start.past 1 := by rw [Reading.stop, decoded]
  have one : r.start.rest.take 1 = [byte] := by simp [ahead]
  refine ⟨_, byte, tail, ahead, moved, by rw [Reading.operand, decoded], rfl, ?_⟩
  rw [one, Endian.number_singleton, Decoding.target, ← moved, moved, Decoding.past_config]

end Shapes

/-! ### Instructions without index bytes -/

/-- No slot of the machine has an index byte. -/
def Unindexed (m : Machine Mode Reg) : Prop := ∀ mode field, m.hasIndexByte mode field = false

theorem readIndexes_eq (unindexed : m.Unindexed) (slots : List (Slot Mode)) (d : Decoding) :
    m.readIndexes slots d = (slots.map fun slot => (slot, none), d) := by
  induction slots with
  | nil => rfl
  | cons slot slots ih => simp [readIndexes, unindexed slot.mode (slot.read d.opcode), ih]

/-! ### Decoding at a reader -/

section Course

variable (m) (hit : Page Mode × Entry Mode) (rest : List UInt8) (address : UInt32)

/-- The state in which the opcode of an entry has been read. -/
theorem decoding_append {gap opcode : List UInt8} (tail : List UInt8)
    (gapped : gap.length = m.gapLength hit.1) (coded : opcode.length = m.opcodeLength hit.1) :
    m.decoding (m.foundAt hit (hit.1.lead ++ gap ++ opcode ++ tail)) address
        (hit.1.lead ++ gap ++ opcode ++ tail) =
      { config := m.config
        address
        opcode := BitVec.ofNat 32 (m.config.endian.number opcode)
        gapBytes := gap
        bytes := hit.1.lead ++ gap ++ opcode
        rest := tail } := by
  simp only [decoding, m.foundAt_append hit tail gapped coded, List.drop_left]

/-- The slots of an entry found in memory with their index bytes, and the state behind these. -/
def indexed : List (Slot Mode × Option UInt8) × Decoding :=
  m.readIndexes hit.2.slots (m.decoding (m.foundAt hit rest) address rest)

/-- The readings of an instruction found in memory. -/
def course : List (Reading m hit.2) :=
  m.readings hit.2 (m.indexed hit rest address).1 (m.indexed hit rest address).2

/-- The state behind an instruction found in memory. -/
def finish : Decoding := m.stopOf hit.2 (m.course hit rest address) (m.indexed hit rest address).2

theorem slots_course : (m.course hit rest address).map (·.slot) = hit.2.slots := by
  have indexes (slots : List (Slot Mode)) (d : Decoding) :
      (m.readIndexes slots d).1.map (·.1) = slots := by
    induction slots generalizing d with
    | nil => rfl
    | cons slot slots ih =>
      unfold readIndexes
      split <;> simp [ih]
  have pairs := m.slots_readings hit.2 (m.indexed hit rest address).1 (m.indexed hit rest address).2
  calc (m.course hit rest address).map (·.slot)
    _ = ((m.course hit rest address).map fun r => (r.slot, r.index)).map (·.1) := by
      simp [Function.comp_def]
    _ = (m.indexed hit rest address).1.map (·.1) := by rw [course, pairs]
    _ = hit.2.slots := indexes hit.2.slots _

theorem readIndexes_follows (slots : List (Slot Mode)) (d : Decoding) :
    Decoding.Follows d (m.readIndexes slots d).2 := by
  induction slots generalizing d with
  | nil => exact .refl d
  | cons slot slots ih =>
    unfold readIndexes
    split
    · exact (Decoding.byte_follows d).trans (ih _)
    · exact ih d

theorem finish_follows (custom : m.CustomFollows) :
    Decoding.Follows (m.decoding (m.foundAt hit rest) address rest) (m.finish hit rest address) :=
  (m.readIndexes_follows hit.2.slots _).trans (stopOf_follows custom _ _)

/-- An instruction is decoded from the bytes that memory begins with. -/
theorem finish_append (custom : m.CustomFollows) :
    (m.finish hit rest address).bytes ++ (m.finish hit rest address).rest = rest := by
  rw [(m.finish_follows hit rest address custom).bytes]
  exact List.prefix_iff_eq_append.mp (List.take_prefix _ rest)

/-- An instruction takes its opcode at least. -/
theorem opcodeLength_le_finish (custom : m.CustomFollows) (hits : m.hits rest hit = true) :
    m.opcodeLength hit.1 ≤ (m.finish hit rest address).bytes.length := by
  have grows := (m.finish_follows hit rest address custom).grows.length_le
  obtain ⟨gap, opcode, tail, rfl, gapped, coded⟩ := m.split_of_hits hits
  rw [m.decoding_append hit address tail gapped coded, List.length_append] at grows
  omega

/-- An opcode of one byte stands behind the lead bytes. -/
theorem exists_opcode (unindexed : m.Unindexed) (bytes : m.config.cell = .byte)
    (gapless : hit.1.gap = 0) (single : hit.1.opcodeCells = 1) (hits : m.hits rest hit = true) :
    ∃ opcode tail, rest = hit.1.lead ++ opcode :: tail ∧
      hit.2.covers (BitVec.ofNat 32 opcode.toNat) = true ∧ m.postHolds hit.2 tail = true ∧
      m.indexed hit rest address = (hit.2.slots.map fun s => (s, none),
        ⟨m.config, address, BitVec.ofNat 32 opcode.toNat, [], hit.1.lead ++ [opcode], tail, none⟩) := by
  obtain ⟨gap, opcode, tail, rfl, gapped, coded⟩ := m.split_of_hits hits
  obtain ⟨byte, rfl⟩ : ∃ byte, opcode = [byte] := by
    apply List.length_eq_one_iff.mp
    simpa [opcodeLength, single, bytes, Cell.bytes] using coded
  obtain rfl : gap = [] := by
    apply List.length_eq_zero_iff.mp
    simpa [gapLength, gapless] using gapped
  have start := m.decoding_append hit address tail gapped coded
  rw [m.hits_append hit tail gapped coded, Bool.and_eq_true] at hits
  rw [Endian.number_singleton] at hits start
  refine ⟨byte, tail, by simp, hits.1, hits.2, ?_⟩
  rw [indexed, start, readIndexes_eq unindexed]
  simp only [List.append_nil]

end Course

/-- How the machine writes an instruction at an address. -/
def rendering (m : Machine Mode Reg) (symbols : Symbols) (style : Style) (address : UInt32) :
    Rendering :=
  ⟨m.config, symbols, style, address⟩

/-- Decoding takes the course of the first entry that matches. -/
theorem decode_eq (symbols : Symbols) (style : Style) {r : Reader} {hit : Page Mode × Entry Mode}
    (found : m.ownEntries.find? (m.hits r.rest) = some hit) :
    m.decode symbols style r =
      ({ address := r.address
         bytes := (m.finish hit r.rest r.address).bytes
         mnemonic := (m.rendering symbols style r.address).case hit.2.name
         operands := (m.tidy ((m.course hit r.rest r.address).filterMap (·.operand))).map
           (m.formatOperand (m.rendering symbols style r.address))
         fault := (m.finish hit r.rest r.address).fault },
        r.skip (m.finish hit r.rest r.address).bytes.length) := by
  have search : m.findByOpcode r.rest = some (m.foundAt hit r.rest) := by
    rw [findByOpcode_eq, found, Option.map_some]
  have entry : (m.foundAt hit r.rest).entry = hit.2 := rfl
  simp only [decode, findAt, search, decodeOperands, decodeSlots_eq, entry]
  rfl

/-- What no entry matches is at fault. -/
theorem exists_hit_of_decode {symbols : Symbols} {style : Style} {r : Reader}
    (clean : (m.decode symbols style r).1.fault = none) :
    ∃ hit, m.ownEntries.find? (m.hits r.rest) = some hit := by
  cases found : m.ownEntries.find? (m.hits r.rest) with
  | none =>
    have search : m.findByOpcode r.rest = none := by rw [findByOpcode_eq, found, Option.map_none]
    simp [decode, findAt, search] at clean
  | some hit => exact ⟨hit, rfl⟩

end Machine

end CrossAsm

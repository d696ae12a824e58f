import CrossAsm.Proofs.Tms32010.Syntax
import CrossAsm.Proofs.Tms32010.Table

/-! Operands in the word of an instruction. Each is read from the word alone, and what is written
for it goes back to the bits it was read from; only a next register pointer takes a bit away. -/

namespace CrossAsm.Tms32010

open Text

/-! ### The low byte -/

/-- An address in the page, or an indirect code. -/
def codeOf (word : BitVec 32) : BitVec 32 := word &&& 0xFF

/-- Does the word name the register that is next? -/
def pointed (word : BitVec 32) : Bool :=
  codeOf word &&& indirect != 0 && codeOf word &&& keepPointer == 0

/-- What holds of every byte holds of the low byte. -/
theorem codeOf_induction {P : BitVec 32 → Prop} (each : ∀ n < 256, P (BitVec.ofNat 32 n))
    (word : BitVec 32) : P (codeOf word) := by
  have small : (codeOf word).toNat < 256 := by
    rw [codeOf, BitVec.toNat_and]
    exact Nat.lt_of_le_of_lt Nat.and_le_right (by decide)
  have known := each _ small
  rwa [BitVec.ofNat_toNat, BitVec.setWidth_eq] at known

theorem read_mem (word : BitVec 32) : mem.read word = (codeOf word).toNat := by
  have mask : mem.mask = 0xFF := by decide
  have still (v : BitVec 32) : v >>> 0 = v := by simp
  rw [Slot.read, mask]
  exact congrArg BitVec.toNat (still _)

set_option maxRecDepth 20000 in
theorem direct_code (word : BitVec 32) (direct : codeOf word &&& indirect = 0) :
    (codeOf word).toNat < 128 ∧ codeOf word &&& 127 = codeOf word &&& 255 :=
  codeOf_induction (P := fun code => code &&& indirect = 0 →
    code.toNat < 128 ∧ code &&& 127 = code &&& 255) (by decide +kernel) word direct

set_option maxRecDepth 20000 in
/-- The code of a step keeps the pointer; naming the next register takes that back. -/
theorem indirect_code (word : BitVec 32) {step : Int} (known : step? (codeOf word) = some step)
    (marked : codeOf word &&& indirect ≠ 0) :
    (0 ≤ step ∧ step < 3) ∧ (pointed word = false → indirectCode step = codeOf word) ∧
      (pointed word = true →
        indirectCode step &&& ~~~keepPointer ||| (codeOf word &&& 1) = codeOf word) := by
  obtain ⟨small, kept, next⟩ := codeOf_induction (P := fun code => ∀ step ∈ step? code,
    code &&& indirect ≠ 0 → (0 ≤ step ∧ step < 3) ∧
      (code &&& keepPointer ≠ 0 → indirectCode step = code) ∧
      (code &&& keepPointer = 0 → indirectCode step &&& ~~~keepPointer ||| (code &&& 1) = code))
    (by decide +kernel) word step known marked
  refine ⟨small, fun stays => kept ?_, fun names => next ?_⟩
  · simp only [pointed, Bool.and_eq_false_iff, bne_eq_false_iff_eq, beq_eq_false_iff_ne] at stays
    exact stays.resolve_left marked
  · simp only [pointed, Bool.and_eq_true, beq_iff_eq] at names
    exact names.2

/-! ### Reading -/

section Reading

variable {entry : Entry Mode} {slot : Slot Mode} {index : Option UInt8} {d : Decoding}

theorem decodeOperand_custom (custom : shape slot.mode = .custom) :
    machine.decodeOperand entry slot index d = decodeCustom entry slot index d := by
  have shaped : machine.shape slot.mode = .custom := custom
  simp only [Machine.decodeOperand, shaped]
  rfl

theorem decodeCustom_mem (mode : slot.mode = .mem) : decodeCustom entry slot index d =
    if codeOf d.opcode &&& indirect = 0 then
      (some { mode := .imm, value := (codeOf d.opcode).toNat, column := 0 }, d)
    else match step? (codeOf d.opcode) with
      | some step => (some { mode := .ind, value := step, column := 0 }, d)
      | none => (none, d.fail .unknownOperand) := by
  simp only [decodeCustom, mode]
  rfl

theorem decode_mem (mode : slot.mode = .mem)
    (clean : (machine.decodeOperand entry slot index d).2.fault = none) :
    (codeOf d.opcode &&& indirect = 0 ∧ machine.decodeOperand entry slot index d =
        (some { mode := .imm, value := (codeOf d.opcode).toNat, column := 0 }, d)) ∨
      ∃ step, codeOf d.opcode &&& indirect ≠ 0 ∧ step? (codeOf d.opcode) = some step ∧
        machine.decodeOperand entry slot index d =
          (some { mode := .ind, value := step, column := 0 }, d) := by
  have custom := @decodeOperand_custom entry slot index d (by rw [mode]; rfl)
  rw [custom, decodeCustom_mem mode] at clean ⊢
  by_cases direct : codeOf d.opcode &&& indirect = 0
  · exact .inl ⟨direct, by rw [if_pos direct]⟩
  · rw [if_neg direct] at clean
    cases known : step? (codeOf d.opcode) with
    | none =>
      rw [known] at clean
      exact absurd clean (d.fail_fault_ne_none _)
    | some step => exact .inr ⟨step, direct, rfl, by rw [if_neg direct]⟩

theorem decode_pointer (mode : slot.mode = .narp) :
    machine.decodeOperand entry slot index d =
      (if pointed d.opcode then
          some { mode := .narp, value := (codeOf d.opcode &&& 1).toNat, column := 0 }
        else none, d) := by
  have custom := @decodeOperand_custom entry slot index d (by rw [mode]; rfl)
  have unfolded : decodeCustom entry slot index d =
      if codeOf d.opcode &&& indirect ≠ 0 ∧ codeOf d.opcode &&& keepPointer = 0 then
        (some { mode := .narp, value := (codeOf d.opcode &&& 1).toNat, column := 0 }, d)
      else (none, d) := by
    simp only [decodeCustom, mode]
    rfl
  rw [custom, unfolded]
  by_cases names : codeOf d.opcode &&& indirect ≠ 0 ∧ codeOf d.opcode &&& keepPointer = 0
  · rw [if_pos names, if_pos (by simpa [pointed] using names)]
  · rw [if_neg names, if_neg (by simpa [pointed] using names)]

theorem decode_store (mode : slot.mode = .sachShift)
    (clean : (machine.decodeOperand entry slot index d).2.fault = none) :
    storeShift (slot.read d.opcode) = true ∧ machine.decodeOperand entry slot index d =
      (some { mode := .sachShift, value := slot.read d.opcode, column := 0 }, d) := by
  have custom := @decodeOperand_custom entry slot index d (by rw [mode]; rfl)
  have unfolded : decodeCustom entry slot index d =
      if storeShift (slot.read d.opcode) then
        (some { mode := .sachShift, value := slot.read d.opcode, column := 0 }, d)
      else (none, d.fail .illegalConstant) := by
    simp only [decodeCustom, mode]
  rw [custom, unfolded] at clean ⊢
  cases known : storeShift (slot.read d.opcode) with
  | true => exact ⟨rfl, rfl⟩
  | false =>
    rw [known] at clean
    exact absurd clean (d.fail_fault_ne_none _)

/-- An operand in the word is read without moving. -/
theorem stop_of_clean (inWord : slot.mode ≠ .pma)
    (clean : (machine.decodeOperand entry slot index d).2.fault = none) :
    (machine.decodeOperand entry slot index d).2 = d := by
  cases mode : slot.mode with
  | pma => exact absurd mode inWord
  | mem =>
    rcases decode_mem mode clean with ⟨-, read⟩ | ⟨step, -, -, read⟩ <;> rw [read]
  | narp => rw [decode_pointer mode]
  | sachShift => rw [(decode_store mode clean).2]
  | _ =>
    simp only [Machine.decodeOperand, mode]
    rfl

end Reading

/-! ### Writing -/

section Writing

variable {entry : Entry Mode} {slot : Slot Mode} {q : Operand Mode Reg}

theorem encodeOperand_custom (custom : shape slot.mode = .custom) (d : Draft) :
    machine.encodeOperand entry slot q d = encodeCustom entry slot q d := by
  have shaped : machine.shape slot.mode = .custom := custom
  simp only [Machine.encodeOperand, shaped]
  rfl

/-- An address in the page has seven bits; one that does not fit is left out. -/
theorem encode_direct (direct : q.mode ≠ .ind) (d : Draft) :
    machine.encodeOperand entry mem q d =
      if q.undefined || fitsUnsigned q.value 7 then
        (d.lay mem (BitVec.ofInt 32 q.value &&& 127) [], none)
      else (d, some .overflowRange) := by
  have low (v : BitVec 32) : (v &&& 127) <<< 0 = mem.place (v &&& 127) := by
    have inside : (127 : BitVec 32) &&& 255 = 127 := by decide
    change _ = (v &&& 127 &&& 255) <<< 0
    rw [BitVec.and_assoc, inside]
  have placed : d.embed (BitVec.ofInt 32 q.value) 0 7 =
      d.lay mem (BitVec.ofInt 32 q.value &&& 127) [] := by
    simp only [Draft.lay, List.append_nil, ← low]
    rfl
  rw [encodeOperand_custom rfl, ← placed]
  simp only [encodeCustom, mem, Slot.field, direct, if_false]

theorem encode_indirect (marked : q.mode = .ind) (d : Draft) :
    machine.encodeOperand entry mem q d = (d.lay mem (indirectCode q.value) [], none) := by
  rw [encodeOperand_custom rfl, ← Draft.embed_eq_lay]
  simp only [encodeCustom, mem, Slot.field, marked, if_true]

/-- A next register pointer clears the bit that keeps the pointer. -/
theorem encode_pointer (d : Draft) :
    machine.encodeOperand entry pointer q d =
      if fitsUnsigned q.value 1 then
        (d.setOpcode (d.opcode &&& ~~~keepPointer ||| BitVec.ofInt 32 q.value), none)
      else (d, some .overflowRange) := by
  rw [encodeOperand_custom rfl]
  rfl

/-- An instruction that only its word makes up. -/
theorem encode_word {page : Page Mode} {qs : List (Operand Mode Reg)} {address : UInt32}
    {word : BitVec 32} {early : Option Fault} (lead : page.lead = []) (cells : page.opcodeCells = 1)
    (run : machine.encodeOperands entry entry.slots qs (machine.draft page entry address) =
      ((machine.draft page entry address).setOpcode word, early)) :
    machine.encode page entry qs address =
      ⟨address, Endian.big.put 2 word.toNat, early.or (qs.findSome? (·.fault))⟩ := by
  have bare : ((machine.draft page entry address).setOpcode word).chunks = [] := rfl
  have bytes : ((machine.draft page entry address).setOpcode word).bytes =
      Endian.big.put 2 word.toNat := by
    simp only [Draft.bytes, Draft.stageBytes, bare, List.flatMap_nil, List.append_nil]
    simp [Draft.setOpcode, Machine.draft, Draft.opcodeBytes, lead, cells]
    rfl
  have faultless : ((machine.draft page entry address).setOpcode word).fault? = none := by
    rw [Draft.fault?, bare]
    rfl
  simp only [Machine.encode, run, bytes, faultless, Option.or_none]

/-- Operands that are fields of the word are laid down side by side. -/
theorem encodeOperands_fields {slots : List (Slot Mode)} {qs : List (Operand Mode Reg)}
    {field : Slot Mode → BitVec 32}
    (lays : List.Forall₂ (fun slot q => ∀ room, machine.Lays entry slot q room
      { field := field slot } none) slots qs) {d : Draft} (config : d.config = machine.config) :
    machine.encodeOperands entry slots qs d =
      (d.setOpcode (d.opcode ||| placeAll (slots.map fun s => (s, field s))), none) := by
  rw [Machine.encodeOperands_eq (Pieces.of_forall₂ lays d.room) d config rfl, Draft.layAll_eq]
  simp [Draft.setOpcode, Function.comp_def, List.flatMap_map]

end Writing

/-! ### Writing back -/

/-- The operand that the text of a decoded operand is read as. -/
def echo (op : Operand Mode Reg) : Operand Mode Reg :=
  { mode := if op.mode = .ind ∨ op.mode = .arReg then op.mode else .imm
    value := op.value
    reg := op.reg
    column := 0 }

/-- The field of an operand before a next register pointer takes its bit away. -/
def fieldOf (word : BitVec 32) (slot : Slot Mode) : BitVec 32 :=
  if slot.mode = .mem ∧ codeOf word &&& indirect ≠ 0 then
    indirectCode ((step? (codeOf word)).getD 0)
  else BitVec.ofNat 32 (slot.read word)

/-- The operand of a slot is written in a form that the slot takes back to the word. -/
structure Restores (slot : Slot Mode) (word : BitVec 32) (rendering : Rendering)
    (op : Operand Mode Reg) : Prop where
  parses : machine.ParsesAs rendering.scope (formatOperand rendering op).toList (echo op)
  accepted : accepts slot.mode (echo op).mode = true
  lays : ∀ entry column room, machine.Lays entry slot { echo op with column } room
    { field := fieldOf word slot } none
  unnamed : op.mode ≠ .narp
  shift : isShift op.mode = isShift slot.mode
  zero : isShift slot.mode = true → (op.value = 0 ↔ slot.read word = 0)

section Restores

variable {entry : Entry Mode} {slot : Slot Mode} {d : Decoding} {rendering : Rendering}
  (texas : rendering.config = config)

include texas

theorem opens_hex (n width : Nat) :
    (rendering.config.dialect.hex n width).toList.head?.any opensNumber = true := by
  simp [texas, config, Dialect.hex, opensNumber]

theorem opens_num (v : Int) : (rendering.num v).toList.head?.any opensNumber = true := by
  have decimal (n : Nat) : (Text.decimal n).toList.head?.any opensNumber = true := by
    have spelled := spells_decimal n
    obtain ⟨first, more, shape⟩ := List.exists_cons_of_ne_nil spelled.nonempty
    have digit := isDigit_of_isDigitOf_ten (spelled.digits first (by simp [shape]))
    simp [shape, opensNumber, digit]
  have hex := opens_hex texas v.natAbs 1
  unfold Rendering.num Dialect.signed decimalInt
  split
  · split
    · simp [opensNumber]
    · exact decimal _
  · split
    · simp [opensNumber]
    · exact hex

theorem parses_num {v : Int} (low : -0x80000000 ≤ v) (high : v < 0x100000000) :
    machine.ParsesAs rendering.scope (rendering.num v).toList
      { mode := .imm, value := v, column := 0 } :=
  parses_number (rendering.evals_num low high) low high (opens_num texas v)

omit texas in
theorem parses_decimal {n : Nat} (bound : n < 0x100000000) :
    machine.ParsesAs rendering.scope (decimalInt n).toList
      { mode := .imm, value := n, column := 0 } := by
  have spelled := spells_decimal n
  obtain ⟨first, more, shape⟩ := List.exists_cons_of_ne_nil spelled.nonempty
  have digit := isDigit_of_isDigitOf_ten (spelled.digits first (by simp [shape]))
  rw [decimalInt_natCast]
  exact parses_number (rendering.evals_decimal bound) (by omega) (by omega)
    (by simp [shape, opensNumber, digit])

/-- A number in a field of the word. -/
theorem restores_embedded {signed : Bool} (shaped : shape slot.mode = .embedded signed)
    (narrow : 0 < slot.width ∧ slot.width ≤ 13) (category : isCategory slot.mode = true) :
    ∃ op, (machine.decodeOperand entry slot none d).1 = some op ∧
      Restores slot d.opcode rendering op := by
  have field := slot.read_lt d.opcode
  have small : twoPow slot.width ≤ 0x2000 := twoPow_le (n := 13) narrow.2
  let value : Int := if signed then signExtend (slot.read d.opcode) slot.width
    else slot.read d.opcode
  have fits : (if signed then fitsSigned value slot.width
      else fitsUnsigned value slot.width) = true := by
    cases signed with
    | true => exact fitsSigned_signExtend _ narrow.1
    | false =>
      change fitsUnsigned (slot.read d.opcode) slot.width = true
      rw [fitsUnsigned_iff (by omega)]
      omega
  have bounds : -0x2000 ≤ value ∧ value < 0x2000 := by
    cases signed with
    | true =>
      have half : twoPow (slot.width - 1) ≤ 0x1000 := twoPow_le (n := 12) (by omega)
      have inside := fitsSigned_iff.mp fits
      omega
    | false =>
      change -0x2000 ≤ (slot.read d.opcode : Int) ∧ (slot.read d.opcode : Int) < 0x2000
      omega
  -- The field keeps no sign, so the value lays down the bits it was read from.
  have same : value % twoPow slot.width = slot.read d.opcode % twoPow slot.width := by
    cases signed with
    | true => exact signExtend_emod _ _
    | false => rfl
  have plain : slot.mode ≠ .ind ∧ slot.mode ≠ .arReg ∧ slot.mode ≠ .mem ∧ slot.mode ≠ .narp := by
    refine ⟨?_, ?_, ?_, ?_⟩ <;> rintro mode <;> simp [mode, isCategory, shape] at category shaped
  refine ⟨{ mode := slot.mode, value, column := d.bytes.length }, ?_, ?_⟩
  · exact congrArg Prod.fst (Machine.decodeOperand_embedded none (show machine.shape _ = _ from shaped))
  · have echoed : echo { mode := slot.mode, value, column := d.bytes.length } =
        { mode := .imm, value, column := 0 } := by
      simp [echo, plain.1, plain.2.1]
    refine ⟨?_, ?_, ?_, plain.2.2.2, rfl, ?_⟩
    · rw [echoed]
      have number := parses_num texas (v := value) (by omega) (by omega)
      have natural (unsigned : signed = false) :
          machine.ParsesAs rendering.scope (decimalInt value).toList
            { mode := .imm, value, column := 0 } := by
        subst unsigned
        exact parses_decimal (by omega)
      cases mode : slot.mode <;> simp [mode, shape] at shaped <;>
        simp only [formatOperand] <;> first | exact number | exact natural shaped
    · rw [echoed]
      cases mode : slot.mode <;> simp_all [shape, accepts]
    · intro entry column room draft _ _
      rw [echoed]
      have laid := slot.place_ofInt (by omega) same
      simp only [Machine.encodeOperand, show machine.shape slot.mode = _ from shaped,
        Machine.encodeEmbedded, fits, Bool.or_true, if_true, Draft.embed_eq_lay, Draft.lay, fieldOf,
        plain.2.2.1, false_and, if_false, laid]
    · intro shift
      obtain rfl : signed = false := by
        cases mode : slot.mode <;> simp_all [shape, isShift]
      exact Int.natCast_eq_zero

omit texas in
theorem restores_register (mode : slot.mode = .ar) (narrow : slot.width ≤ 1) :
    ∃ op, (machine.decodeOperand entry slot none d).1 = some op ∧
      Restores slot d.opcode rendering op := by
  have shaped : machine.shape slot.mode = .register := by rw [mode]; rfl
  have small : slot.read d.opcode < 2 := by
    have field := slot.read_lt d.opcode
    have bits : twoPow slot.width ≤ 2 := twoPow_le (n := 1) narrow
    omega
  let reg : Reg := if slot.read d.opcode % 2 = 0 then .ar0 else .ar1
  have decoded := @Machine.decodeOperand_register _ _ machine entry slot none d shaped
    { mode := .arReg, reg := some reg, column := 0 } rfl
  refine ⟨_, congrArg Prod.fst decoded, ?_, by rw [mode]; rfl, ?_, by simp, by rw [mode]; rfl,
    by simp [mode, isShift]⟩
  · have plain : isWord reg.name = true := by cases reg <;> decide
    exact parses_register (rendering.names_case plain)
  · intro entry column room draft _ _
    have field : machine.registerField slot.mode
        { echo { mode := .arReg, reg := some reg, column := 0 } with column } =
          .ok (slot.read d.opcode) := by
      obtain zero | one : slot.read d.opcode = 0 ∨ slot.read d.opcode = 1 := by omega
      · simp [machine, registerField, echo, reg, zero]
      · simp [machine, registerField, echo, reg, one]
    have other : slot.mode ≠ .mem := by simp [mode]
    simp only [Machine.encodeOperand, shaped, Machine.encodeRegister, field, Draft.embed_eq_lay,
      fieldOf, other, false_and, if_false]

omit texas in
theorem restores_store (mode : slot.mode = .sachShift) (narrow : slot.width ≤ 13)
    (clean : (machine.decodeOperand entry slot none d).2.fault = none) :
    ∃ op, (machine.decodeOperand entry slot none d).1 = some op ∧
      Restores slot d.opcode rendering op := by
  obtain ⟨allowed, decoded⟩ := decode_store mode clean
  have field := slot.read_lt d.opcode
  have small : twoPow slot.width ≤ 0x2000 := twoPow_le (n := 13) narrow
  refine ⟨_, congrArg Prod.fst decoded, ?_, by rw [mode]; rfl, ?_, nofun, by rw [mode],
    fun _ => Int.natCast_eq_zero⟩
  · exact parses_decimal (by omega)
  · intro entry column room draft _ _
    have laid := slot.place_ofInt (v := slot.read d.opcode) (n := slot.read d.opcode) (by omega) rfl
    rw [encodeOperand_custom (by rw [mode]; rfl)]
    simp only [encodeCustom, mode, echo, allowed, if_true, Draft.embed_eq_lay, fieldOf]
    simp only [Draft.lay, laid]
    rfl

theorem restores_mem (slot_eq : slot = mem)
    (clean : (machine.decodeOperand entry slot none d).2.fault = none) :
    ∃ op, (machine.decodeOperand entry slot none d).1 = some op ∧
      Restores slot d.opcode rendering op ∧
      (op.mode = .ind ↔ codeOf d.opcode &&& indirect ≠ 0) := by
  subst slot_eq
  rcases decode_mem rfl clean with ⟨direct, decoded⟩ | ⟨step, marked, known, decoded⟩
  · obtain ⟨small, low⟩ := direct_code d.opcode direct
    have nonnegative : (0 : Int) ≤ (codeOf d.opcode).toNat := by omega
    have high : ((codeOf d.opcode).toNat : Int) < 128 := by omega
    refine ⟨_, congrArg Prod.fst decoded, ⟨?_, rfl, ?_, nofun, rfl, nofun⟩, ?_⟩
    · exact parses_num texas (v := (codeOf d.opcode).toNat) (by omega) (by omega)
    · intro entry column room draft _ _
      have fits : fitsUnsigned (codeOf d.opcode).toNat 7 = true := by
        rw [fitsUnsigned_iff (by decide)]
        exact ⟨nonnegative, high⟩
      have field : fieldOf d.opcode mem = codeOf d.opcode := by
        rw [fieldOf, if_neg (by simp [direct]), read_mem, BitVec.ofNat_toNat, BitVec.setWidth_eq]
      have bits : BitVec.ofInt 32 (codeOf d.opcode).toNat &&& 127 = codeOf d.opcode := by
        simpa [codeOf, BitVec.and_assoc] using low
      rw [encode_direct (by simp [echo]), field]
      simp only [echo, fits, Bool.or_true, if_true, bits]
    · simp [direct]
  · obtain ⟨small, -, -⟩ := indirect_code d.opcode known marked
    refine ⟨_, congrArg Prod.fst decoded, ⟨?_, rfl, ?_, nofun, rfl, nofun⟩, ?_⟩
    · exact parses_indirect small
    · intro entry column room draft _ _
      have field : fieldOf d.opcode mem = indirectCode step := by
        rw [fieldOf, if_pos ⟨rfl, marked⟩, known, Option.getD_some]
      rw [encode_indirect (by simp [echo]), field]
      rfl
    · simpa using marked

/-- The operand of a slot in the word, save for the next register pointer. -/
theorem exists_restores (proper : Proper slot) (inWord : slot.mode ≠ .pma)
    (other : slot.mode ≠ .narp)
    (clean : (machine.decodeOperand entry slot none d).2.fault = none) :
    ∃ op, (machine.decodeOperand entry slot none d).1 = some op ∧
      Restores slot d.opcode rendering op := by
  have embedded (signed : Bool) (shaped : shape slot.mode = .embedded signed) :
      ∃ op, (machine.decodeOperand entry slot none d).1 = some op ∧
        Restores slot d.opcode rendering op := by
    have fits := proper.fits
    simp only [Machine.fieldFits, show machine.shape slot.mode = _ from shaped, Bool.and_eq_true,
      decide_eq_true_eq] at fits
    exact restores_embedded texas shaped ⟨fits.1, proper.narrow⟩ proper.category
  cases mode : slot.mode with
  | imm | ind | arReg => 
    have category := proper.category
    simp [mode, isCategory] at category
  | pma => exact absurd mode inWord
  | narp => exact absurd mode other
  | mem =>
    obtain ⟨op, read, restores, -⟩ := restores_mem texas (proper.memory mode) clean
    exact ⟨op, read, restores⟩
  | sachShift => exact restores_store mode proper.narrow clean
  | ar => exact restores_register mode (proper.single mode)
  | shift | port | k1 | k8 | arp => exact embedded false (by rw [mode]; rfl)
  | k13 => exact embedded true (by rw [mode]; rfl)

end Restores

end CrossAsm.Tms32010

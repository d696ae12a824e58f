import CrossAsm.Proofs.Readback

/-! How far an instruction reaches where every operand has a fixed length. What the assembler lays
down for an entry, whatever its operands, is as long as what the disassembler reads for it. -/

namespace CrossAsm

variable {Mode Reg : Type} {m : Machine Mode Reg} {own : Mode → Nat} {entry : Entry Mode}
  {slot : Slot Mode}

theorem Width.exists_bytes {width : Width} (fixed : width ≠ .sized) (size : Size) :
    ∃ n, width.bytes? size = some n := by
  cases width <;> simp_all [Width.bytes?]

namespace Machine

/-- Does the operand of the slot stand in the gap where that has room? -/
def inGap (m : Machine Mode Reg) (slot : Slot Mode) : Bool :=
  match m.shape slot.mode with
  | .indexed .. => true
  | _ => false

/-- Bytes that the operand of a slot takes outside the opcode; `own` gives them for the modes that
the target has rules of its own for. -/
def span (m : Machine Mode Reg) (own : Mode → Nat) (entry : Entry Mode) (slot : Slot Mode) : Nat :=
  match m.shape slot.mode with
  | .implied | .register | .embedded _ | .bit | .ladder _ => 0
  | .immediate width | .absolute width | .relative width | .indexed width _ =>
    (width.bytes? entry.size).getD 0
  | .custom => own slot.mode

/-- Bytes behind the opcode for the operands of some slots, where the gap has so much room. -/
def extent (m : Machine Mode Reg) (own : Mode → Nat) (entry : Entry Mode) :
    List (Slot Mode) → Nat → Nat
  | [], _ => 0
  | slot :: slots, room =>
    if m.inGap slot && decide (0 < room) then m.extent own entry slots (room - 1)
    else m.span own entry slot + m.extent own entry slots room

/-- Every field of the slot that the opcode may have can be read. -/
def Legible (m : Machine Mode Reg) (own : Mode → Nat) (entry : Entry Mode) (slot : Slot Mode)
    (opcode : BitVec 32) : Prop :=
  match m.shape slot.mode with
  | .implied | .embedded _ | .bit => True
  | .register => (m.registerOperand slot.mode (slot.read opcode)).isSome = true
  | .immediate width | .absolute width => (width.bytes? entry.size).isSome = true
  | .relative width => width = .byte
  | .indexed width _ => width = .byte ∧ slot.width = 0
  | .ladder _ => False
  | .custom => ∀ d : Decoding, d.config = m.config → d.opcode = opcode →
      own slot.mode ≤ d.rest.length →
      (m.decodeCustom entry slot none d).2 = d.past (own slot.mode)

theorem legible_of_compact (compact : m.Compact) (fits : m.fieldFits slot = true)
    {opcode : BitVec 32}
    (register : m.shape slot.mode = .register →
      (m.registerOperand slot.mode (slot.read opcode)).isSome = true)
    (custom : m.shape slot.mode = .custom → ∀ d : Decoding, d.config = m.config →
      d.opcode = opcode → own slot.mode ≤ d.rest.length →
      (m.decodeCustom entry slot none d).2 = d.past (own slot.mode)) :
    m.Legible own entry slot opcode := by
  unfold Legible
  cases shape : m.shape slot.mode with
  | implied | embedded _ | bit => trivial
  | register => exact register shape
  | immediate width =>
    obtain ⟨n, sized⟩ := Width.exists_bytes (compact.fixed _ _ (.inl shape)) entry.size
    simp [sized]
  | absolute width =>
    obtain ⟨n, sized⟩ := Width.exists_bytes (compact.fixed _ _ (.inr shape)) entry.size
    simp [sized]
  | relative width => exact compact.relative _ _ shape
  | indexed width signed =>
    exact ⟨compact.indexed _ _ _ shape, by simpa [fieldFits, shape] using fits⟩
  | ladder relative => exact compact.rigid _ _ shape
  | custom => exact custom shape

/-! ### Reading -/

theorem decodeOperand_outside {d : Decoding} (legible : m.Legible own entry slot d.opcode)
    (config : d.config = m.config) (enough : m.span own entry slot ≤ d.rest.length)
    (outside : m.inGap slot = false ∨ d.gapBytes = []) :
    (m.decodeOperand entry slot none d).2 = d.past (m.span own entry slot) := by
  cases shape : m.shape slot.mode with
  | implied | embedded _ | bit =>
    simp [decodeOperand, span, shape]
  | register =>
    obtain ⟨op, known⟩ := Option.isSome_iff_exists.mp (by simpa [Legible, shape] using legible)
    simp [decodeOperand_register none shape known, span, shape]
  | immediate width =>
    obtain ⟨n, sized⟩ := Option.isSome_iff_exists.mp (by simpa [Legible, shape] using legible)
    simp only [span, shape, sized, Option.getD_some] at enough ⊢
    rw [decodeOperand_number none (.inl shape) sized enough]
  | absolute width =>
    obtain ⟨n, sized⟩ := Option.isSome_iff_exists.mp (by simpa [Legible, shape] using legible)
    simp only [span, shape, sized, Option.getD_some] at enough ⊢
    rw [decodeOperand_number none (.inr shape) sized enough]
  | relative width =>
    obtain rfl : width = .byte := by simpa [Legible, shape] using legible
    simp only [span, shape, Width.bytes?, Option.getD_some] at enough ⊢
    rw [decodeOperand_relative none shape enough]
  | indexed width signed =>
    obtain ⟨rfl, bare⟩ : width = .byte ∧ slot.width = 0 := by simpa [Legible, shape] using legible
    have empty : d.gapBytes = [] := by simpa [inGap, shape] using outside
    simp only [span, shape, Width.bytes?, Option.getD_some] at enough ⊢
    rw [decodeOperand_indexed none shape bare, Decoding.readDisp_rest (by simp [empty]),
      Decoding.read, Decoding.readIn_eq d d.config.endian enough (by decide)]
  | ladder relative => simp [Legible, shape] at legible
  | custom =>
    simp only [span, shape, Legible] at enough legible ⊢
    simp only [decodeOperand, shape]
    exact legible d config rfl enough

theorem decodeOperand_inside {d : Decoding} (legible : m.Legible own entry slot d.opcode)
    (inside : m.inGap slot = true) (room : 0 < d.gapBytes.length) :
    (m.decodeOperand entry slot none d).2 = { d with gapBytes := d.gapBytes.drop 1 } := by
  cases shape : m.shape slot.mode with
  | indexed width signed =>
    obtain ⟨rfl, bare⟩ : width = .byte ∧ slot.width = 0 := by simpa [Legible, shape] using legible
    rw [decodeOperand_indexed none shape bare, Decoding.readDisp_gap room (by decide)]
  | _ => simp [inGap, shape] at inside

/-- Operands that can be read take up their extent and report nothing. -/
theorem stopOf_extent {slots : List (Slot Mode)} {d : Decoding}
    (legible : ∀ s ∈ slots, m.Legible own entry s d.opcode) (config : d.config = m.config)
    (enough : m.extent own entry slots d.gapBytes.length ≤ d.rest.length) :
    let stop := m.stopOf entry (m.readings entry (slots.map fun s => (s, none)) d) d
    stop.fault = d.fault ∧
      stop.bytes.length = d.bytes.length + m.extent own entry slots d.gapBytes.length := by
  induction slots generalizing d with
  | nil => exact ⟨rfl, rfl⟩
  | cons slot slots ih =>
    have first := legible slot (by simp)
    by_cases inside : m.inGap slot = true ∧ 0 < d.gapBytes.length
    · have moved := decodeOperand_inside first inside.1 inside.2
      have step : m.extent own entry (slot :: slots) d.gapBytes.length =
          m.extent own entry slots (d.gapBytes.length - 1) := by
        simp [extent, inside.1, inside.2]
      rw [step] at enough ⊢
      have rest := @ih { d with gapBytes := d.gapBytes.drop 1 }
        (fun s member => legible s (by simp [member])) config (by simpa using enough)
      simp only [List.length_drop] at rest
      simp only [List.map_cons, readings, stopOf, Reading.stop, moved]
      exact rest
    · have step : m.extent own entry (slot :: slots) d.gapBytes.length =
          m.span own entry slot + m.extent own entry slots d.gapBytes.length := by
        have outside : (m.inGap slot && decide (0 < d.gapBytes.length)) = false := by
          simpa using inside
        simp [extent, outside]
      rw [step] at enough ⊢
      have moved := decodeOperand_outside first config (by omega) (by
        rcases Nat.eq_zero_or_pos d.gapBytes.length with empty | room
        · exact .inr (List.length_eq_zero_iff.mp empty)
        · exact .inl (by simpa using fun gap => inside ⟨gap, room⟩))
      have rest := @ih (d.past (m.span own entry slot))
        (fun s member => legible s (by simp [member])) config
        (by simp only [Decoding.past_gapBytes, Decoding.past_rest, List.length_drop]; omega)
      simp only [Decoding.past_fault, Decoding.past_bytes, Decoding.past_gapBytes,
        List.length_append, List.length_take_of_le (show m.span own entry slot ≤ d.rest.length by omega)]
        at rest
      simp only [List.map_cons, readings, stopOf, Reading.stop, moved]
      exact ⟨rest.1, by rw [rest.2]; omega⟩

/-- The bytes of an instruction of a page. -/
def instruction (m : Machine Mode Reg) (page : Page Mode) (gap : List UInt8) (opcode : BitVec 32)
    (payload : List UInt8) : List UInt8 :=
  page.lead ++ gap ++ m.config.endian.put (m.opcodeLength page) opcode.toNat ++ payload

/-- The parts of an instruction are as long as its entry asks for. -/
structure Complete (m : Machine Mode Reg) (own : Mode → Nat) (hit : Page Mode × Entry Mode)
    (gap : List UInt8) (opcode : BitVec 32) (payload : List UInt8) : Prop where
  gapped : gap.length = m.gapLength hit.1
  long : payload.length = m.extent own hit.2 hit.2.slots (m.gapLength hit.1)
  short : m.opcodeLength hit.1 ≤ 4
  small : opcode.toNat < twoPow (8 * m.opcodeLength hit.1)

namespace Complete

variable {hit : Page Mode × Entry Mode} {gap payload : List UInt8} {opcode : BitVec 32}
  (complete : m.Complete own hit gap opcode payload)

include complete

theorem length_opcode : (m.config.endian.put (m.opcodeLength hit.1) opcode.toNat).length =
    m.opcodeLength hit.1 := by
  rw [Endian.length_put, Nat.min_eq_left complete.short]

theorem number_opcode : BitVec.ofNat 32 (m.config.endian.number
    (m.config.endian.put (m.opcodeLength hit.1) opcode.toNat)) = opcode := by
  rw [m.config.endian.number_put_of_lt complete.short complete.small, BitVec.ofNat_toNat,
    BitVec.setWidth_eq]

/-- An entry whose page has the same form matches if it covers the opcode and its condition holds. -/
theorem hits_of_page {other : Page Mode × Entry Mode} (lead : other.1.lead = hit.1.lead)
    (gaps : other.1.gap = hit.1.gap) (cells : other.1.opcodeCells = hit.1.opcodeCells)
    (suffix : List UInt8) : m.hits (m.instruction hit.1 gap opcode payload ++ suffix) other =
      (other.2.covers opcode && m.postHolds other.2 (payload ++ suffix)) := by
  have gapped : gap.length = m.gapLength other.1 := by
    rw [complete.gapped, gapLength, gapLength, gaps]
  have coded : (m.config.endian.put (m.opcodeLength hit.1) opcode.toNat).length =
      m.opcodeLength other.1 := by
    rw [complete.length_opcode, opcodeLength, opcodeLength, cells]
  rw [instruction, List.append_assoc _ payload suffix, ← lead,
    m.hits_append other (payload ++ suffix) gapped coded, complete.number_opcode]

theorem hits_eq (suffix : List UInt8) :
    m.hits (m.instruction hit.1 gap opcode payload ++ suffix) hit =
      (hit.2.covers opcode && m.postHolds hit.2 (payload ++ suffix)) :=
  complete.hits_of_page rfl rfl rfl suffix

/-- Decoding an entry that matches bytes as long as it asks for takes just these. -/
theorem finish_eq (unindexed : m.Unindexed) (custom : m.CustomFollows)
    (legible : ∀ s ∈ hit.2.slots, m.Legible own hit.2 s opcode) (suffix : List UInt8)
    (address : UInt32) :
    let bytes := m.instruction hit.1 gap opcode payload
    (m.finish hit (bytes ++ suffix) address).fault = none ∧
      (m.finish hit (bytes ++ suffix) address).bytes = bytes := by
  intro bytes
  have start := m.decoding_append hit address (payload ++ suffix) complete.gapped
    complete.length_opcode
  rw [complete.number_opcode, ← List.append_assoc] at start
  have indexed : m.indexed hit (bytes ++ suffix) address = (hit.2.slots.map fun s => (s, none),
      m.decoding (m.foundAt hit (bytes ++ suffix)) address (bytes ++ suffix)) :=
    readIndexes_eq unindexed hit.2.slots _
  have whole := m.finish_append hit (bytes ++ suffix) address custom
  have taken := @stopOf_extent _ _ m own hit.2 hit.2.slots
    (m.decoding (m.foundAt hit (bytes ++ suffix)) address (bytes ++ suffix))
  simp only [bytes, instruction] at indexed whole taken ⊢
  rw [start] at indexed taken
  have stops := taken legible rfl (by
    rw [complete.gapped, List.length_append, complete.long]
    omega)
  simp only [finish, course, indexed] at whole ⊢
  refine ⟨stops.1, ?_⟩
  apply List.append_inj_left whole
  rw [stops.2, complete.gapped]
  simp only [List.length_append, complete.long]

end Complete

/-! ### Laying down -/

/-- The operand becomes this piece, which is as long as the slot asks for. What the piece holds is
said where the field decides whether it can be read: for registers, for immediates in order, and
by `C` for the modes that the target has rules of its own for. -/
structure Stands (m : Machine Mode Reg) (own : Mode → Nat)
    (C : Slot Mode → Operand Mode Reg → Piece → Option Cause → Prop) (entry : Entry Mode)
    (slot : Slot Mode) (op : Operand Mode Reg) (room : Nat) (piece : Piece)
    (cause : Option Cause) : Prop where
  lays : m.Lays entry slot op room piece cause
  gaps : piece.gaps = if m.inGap slot && decide (0 < room) then 1 else 0
  gap : ∀ base, (piece.bytes m.config base .gap).length = piece.gaps
  index : ∀ base, piece.bytes m.config base .index = []
  payload : ∀ base, (piece.bytes m.config base .payload).length =
    if m.inGap slot && decide (0 < room) then 0 else m.span own entry slot
  register : m.shape slot.mode = .register → piece.field = 0#32 ∨
    ∃ n, m.registerField slot.mode op = .ok n ∧ piece.field = BitVec.ofNat 32 n
  immediate : ∀ width n, m.shape slot.mode = .immediate width → width.bytes? entry.size = some n →
    cause = none → ∀ base, piece.bytes m.config base .payload = m.config.endian.put n op.value
  custom : m.shape slot.mode = .custom → C slot op piece cause

section Stands

variable {C : Slot Mode → Operand Mode Reg → Piece → Option Cause → Prop} {op : Operand Mode Reg}
  {room : Nat} {piece : Piece} {cause : Option Cause}

/-- An operand that has only a field in the opcode. -/
theorem stands_field {field : BitVec 32} (lays : m.Lays entry slot op room { field } cause)
    (outside : m.inGap slot = false) (short : m.span own entry slot = 0)
    (register : m.shape slot.mode = .register → field = 0#32 ∨
      ∃ n, m.registerField slot.mode op = .ok n ∧ field = BitVec.ofNat 32 n)
    (other : ∀ width, m.shape slot.mode ≠ .immediate width)
    (custom : m.shape slot.mode = .custom → C slot op { field } cause) :
    m.Stands own C entry slot op room { field } cause where
  lays := lays
  gaps := by simp [outside, Piece.gaps]
  gap _ := rfl
  index _ := rfl
  payload _ := by simp [outside, short, Piece.bytes]
  register := register
  immediate width _ shape := absurd shape (other width)
  custom := custom

/-- An operand that has only bytes behind the opcode. -/
theorem stands_payload {field : Field} {column : Nat}
    (lays : m.Lays entry slot op room { extensions := [⟨.payload, field, column⟩] } cause)
    (outside : (m.inGap slot && decide (0 < room)) = false)
    (long : ∀ base, (Extension.laid m.config base ⟨.payload, field, column⟩).1.length =
      m.span own entry slot)
    (immediate : ∀ width n, m.shape slot.mode = .immediate width →
      width.bytes? entry.size = some n → cause = none → ∀ base,
      (Extension.laid m.config base ⟨.payload, field, column⟩).1 = m.config.endian.put n op.value)
    (custom : m.shape slot.mode = .custom →
      C slot op { extensions := [⟨.payload, field, column⟩] } cause) :
    m.Stands own C entry slot op room { extensions := [⟨.payload, field, column⟩] } cause where
  lays := lays
  gaps := by simp [outside, Piece.gaps]
  gap base := by simp [Piece.bytes, Extension.stageOf_singleton, Piece.gaps]
  index base := by simp [Piece.bytes, Extension.stageOf_singleton]
  payload base := by simpa [Piece.bytes, Extension.stageOf_singleton, outside] using long base
  register _ := .inl rfl
  immediate := by simpa [Piece.bytes, Extension.stageOf_singleton] using immediate
  custom := custom

theorem encodeNumber_eq (stage : Stage) (op : Operand Mode Reg) (n : Nat) (fits : Bool) :
    ∃ value cause, (cause = none → value = op.value) ∧
      ∀ d : Draft, encodeNumber stage op n fits d = (d.emit stage value n op.column, cause) := by
  by_cases inside : (op.undefined || fits) = true
  · exact ⟨op.value, none, fun _ => rfl, fun d => by rw [encodeNumber, if_pos inside]⟩
  · exact ⟨0, some .overflowRange, by simp, fun d => by rw [encodeNumber, if_neg inside]⟩

theorem encodeEmbedded_eq (slot : Slot Mode) (op : Operand Mode Reg) (fits : Bool)
    (cause : Cause) : ∃ field fault, ∀ d : Draft,
      encodeEmbedded slot op fits cause d = (d.lay slot field [], fault) := by
  by_cases inside : (op.undefined || fits) = true
  · refine ⟨BitVec.ofInt 32 op.value, none, fun d => ?_⟩
    rw [encodeEmbedded, if_pos inside, d.embed_eq_lay]
  · refine ⟨0#32, some cause, fun d => ?_⟩
    rw [encodeEmbedded, if_neg inside, ← d.eq_lay]

theorem exists_stands_register (shape : m.shape slot.mode = .register) :
    ∃ piece cause, m.Stands own C entry slot op room piece cause := by
  have outside : m.inGap slot = false := by simp [inGap, shape]
  have short : m.span own entry slot = 0 := by simp [span, shape]
  cases register : m.registerField slot.mode op with
  | ok n =>
    refine ⟨{ field := BitVec.ofNat 32 n }, none, stands_field ?_ outside short
      (fun _ => .inr ⟨n, register, rfl⟩) (by simp [shape]) (by simp [shape])⟩
    intro d _ _
    simp only [encodeOperand, shape, encodeRegister, register, d.embed_eq_lay]
  | error cause =>
    refine ⟨{}, some cause, stands_field ?_ outside short (fun _ => .inl rfl) (by simp [shape])
      (by simp [shape])⟩
    intro d _ _
    simp only [encodeOperand, shape, encodeRegister, register, ← d.eq_lay]

theorem exists_stands_embedded
    (shape : m.shape slot.mode = .bit ∨ ∃ signed, m.shape slot.mode = .embedded signed) :
    ∃ piece cause, m.Stands own C entry slot op room piece cause := by
  obtain ⟨field, fault, lays⟩ : ∃ field fault, ∀ d : Draft,
      m.encodeOperand entry slot op d = (d.lay slot field [], fault) := by
    rcases shape with shape | ⟨signed, shape⟩
    · simpa only [encodeOperand, shape] using encodeEmbedded_eq slot op _ _
    · simpa only [encodeOperand, shape] using encodeEmbedded_eq slot op _ _
  refine ⟨{ field }, fault, stands_field (fun d _ _ => lays d) ?_ ?_ ?_ ?_ ?_⟩ <;>
    rcases shape with shape | ⟨signed, shape⟩ <;> simp [inGap, span, shape]

theorem exists_stands_immediate (compact : m.Compact) {width : Width}
    (shape : m.shape slot.mode = .immediate width) :
    ∃ piece cause, m.Stands own C entry slot op room piece cause := by
  obtain ⟨n, sized⟩ := Width.exists_bytes (compact.fixed _ _ (.inl shape)) entry.size
  have short := Width.bytes?_le sized
  obtain ⟨value, cause, same, lays⟩ := encodeNumber_eq .payload op n
    (fitsSigned op.value (8 * n) || fitsUnsigned op.value (8 * n))
  refine ⟨{ extensions := [⟨.payload, .number value n m.config.endian, op.column⟩] }, cause,
    stands_payload ?_ (by simp [inGap, shape]) ?_ ?_ (by simp [shape])⟩
  · intro d config _
    simp only [encodeOperand, shape, sized, lays, Draft.emit, config, d.extend_eq_lay slot]
  · intro base
    simp [Extension.laid_number, span, shape, sized, short]
  · intro width' n' shape' sized' none base
    obtain rfl : width = width' := by simpa [shape] using shape'
    obtain rfl : n = n' := by simpa [sized] using sized'
    rw [Extension.laid_number, same none]

theorem exists_stands_absolute (compact : m.Compact) {width : Width}
    (shape : m.shape slot.mode = .absolute width) :
    ∃ piece cause, m.Stands own C entry slot op room piece cause := by
  obtain ⟨n, sized⟩ := Width.exists_bytes (compact.fixed _ _ (.inr shape)) entry.size
  have short := Width.bytes?_le sized
  obtain ⟨value, cause, -, lays⟩ := encodeNumber_eq .payload
    { op with value := if op.undefined then 0 else op.value } n
    (fitsUnsigned op.value (min (8 * n) m.config.addressBits))
  refine ⟨{ extensions := [⟨.payload, .number value n m.config.endian, op.column⟩] }, cause,
    stands_payload ?_ (by simp [inGap, shape]) ?_ (by simp [shape]) (by simp [shape])⟩
  · intro d config _
    simp only [encodeOperand, shape, sized, config, lays, Draft.emit, d.extend_eq_lay slot]
  · intro base
    simp [Extension.laid_number, span, shape, sized, short]

theorem exists_stands_relative (compact : m.Compact) {width : Width}
    (shape : m.shape slot.mode = .relative width) :
    ∃ piece cause, m.Stands own C entry slot op room piece cause := by
  obtain rfl := compact.relative _ _ shape
  refine ⟨{ extensions := [⟨.payload, .relative op.value 1 op.undefined, op.column⟩] }, none,
    stands_payload ?_ (by simp [inGap, shape]) ?_ (by simp [shape]) (by simp [shape])⟩
  · intro d _ _
    simp only [encodeOperand, shape, Width.bytes?, d.extend_eq_lay slot]
  · intro base
    have one := Extension.length_laid compact.flat base
      (e := ⟨.payload, .relative op.value 1 op.undefined, op.column⟩) rfl
    rw [one]
    simp [span, shape, Width.bytes?, Extension.initialSize]

theorem exists_stands_indexed (compact : m.Compact) (fits : m.fieldFits slot = true)
    {width : Width} {signed : Bool} (shape : m.shape slot.mode = .indexed width signed) :
    ∃ piece cause, m.Stands own C entry slot op room piece cause := by
  obtain rfl := compact.indexed _ _ _ shape
  have bare : slot.width = 0 := by simpa [fieldFits, shape] using fits
  have inside : m.inGap slot = true := by simp [inGap, shape]
  obtain ⟨value, cause, -, number⟩ := encodeNumber_eq (if 0 < room then .gap else .payload) op 1
    (if signed then fitsSigned op.value 8 else fitsUnsigned op.value 8)
  have lays (d : Draft) (config : d.config = m.config) (roomy : d.room = room) :
      m.encodeOperand entry slot op d = (d.lay slot 0#32 [⟨if 0 < room then .gap else .payload,
        .number value 1 m.config.endian, op.column⟩], cause) := by
    simp only [encodeOperand, shape, bare, Nat.lt_irrefl, if_false, Width.bytes?, Nat.mul_one,
      d.dispStage_eq, roomy, number, Draft.emit, config, d.extend_eq_lay slot]
  by_cases roomy : 0 < room
  · simp only [if_pos roomy] at lays
    refine ⟨{ extensions := [⟨.gap, .number value 1 m.config.endian, op.column⟩] }, cause, ?_⟩
    exact {
      lays := lays
      gaps := by simp [inside, roomy, Piece.gaps]
      gap := by simp [Piece.gaps, Piece.bytes, Extension.stageOf_singleton, Extension.laid_number]
      index := by simp [Piece.bytes, Extension.stageOf_singleton]
      payload := by simp [inside, roomy, Piece.bytes, Extension.stageOf_singleton]
      register := by simp [shape]
      immediate := by simp [shape]
      custom := by simp [shape] }
  · simp only [if_neg roomy] at lays
    refine ⟨_, cause, stands_payload lays (by simp [roomy]) ?_ (by simp [shape]) (by simp [shape])⟩
    intro base
    simp [Extension.laid_number, span, shape, Width.bytes?]

/-- Whatever the operand, something as long as the slot asks for is laid down. -/
theorem exists_stands (compact : m.Compact) (fits : m.fieldFits slot = true)
    (custom : m.shape slot.mode = .custom →
      ∃ piece cause, m.Stands own C entry slot op room piece cause) :
    ∃ piece cause, m.Stands own C entry slot op room piece cause := by
  cases shape : m.shape slot.mode with
  | implied =>
    refine ⟨{}, none, stands_field ?_ (by simp [inGap, shape]) (by simp [span, shape])
      (by simp [shape]) (by simp [shape]) (by simp [shape])⟩
    intro d _ _
    simp only [encodeOperand, shape, ← d.eq_lay]
  | register => exact exists_stands_register shape
  | embedded signed => exact exists_stands_embedded (.inr ⟨signed, shape⟩)
  | bit => exact exists_stands_embedded (.inl shape)
  | immediate width => exact exists_stands_immediate compact shape
  | absolute width => exact exists_stands_absolute compact shape
  | relative width => exact exists_stands_relative compact shape
  | indexed width signed => exact exists_stands_indexed compact fits shape
  | ladder relative => exact absurd shape (compact.rigid _ _)
  | custom => exact custom shape

end Stands

/-! ### Whole instructions -/

section Layout

variable {C : Slot Mode → Operand Mode Reg → Piece → Option Cause → Prop}
  {slots : List (Slot Mode)} {ops : List (Operand Mode Reg)} {room : Nat}
  {pieces : List (Slot Mode × Piece)} {fault : Option Fault}

theorem index_of_stands (stands : Pieces (m.Stands own C entry) slots ops room pieces fault)
    (base : Int) : pieces.flatMap (·.2.bytes m.config base .index) = [] :=
  List.flatMap_eq_nil_iff.mpr (stands.forall_mem fun _ _ _ _ _ stands => stands.index base)

theorem length_payload_of_stands
    (stands : Pieces (m.Stands own C entry) slots ops room pieces fault) (base : Int) :
    (pieces.flatMap (·.2.bytes m.config base .payload)).length = m.extent own entry slots room := by
  induction stands with
  | nil => rfl
  | @cons slot op room piece cause slots ops pieces later first rest ih =>
    rw [List.flatMap_cons, List.length_append, ih, first.payload base, first.gaps, extent]
    split <;> simp

/-- A gap of one byte is filled by the first operand that stands there. -/
theorem length_gap_of_stands
    (stands : Pieces (m.Stands own C entry) slots ops room pieces fault) (base : Int)
    (small : room ≤ 1) (filled : room = 0 ∨ ∃ s ∈ slots, m.inGap s = true) :
    (pieces.flatMap (·.2.bytes m.config base .gap)).length = room := by
  induction stands with
  | nil room =>
    have none : room = 0 := by simpa using filled
    exact none.symm
  | @cons slot op room piece cause slots ops pieces later first rest ih =>
    have taken := first.gaps
    rw [List.flatMap_cons, List.length_append, first.gap base]
    by_cases inside : (m.inGap slot && decide (0 < room)) = true
    · rw [if_pos inside] at taken
      rw [ih (by omega) (.inl (by omega))]
      simp only [Bool.and_eq_true, decide_eq_true_eq] at inside
      omega
    · rw [if_neg inside] at taken
      rw [ih (by omega)]
      · omega
      · rcases filled with none | ⟨s, member, gap⟩
        · exact .inl (by omega)
        · rcases List.mem_cons.mp member with rfl | later
          · have full : room = 0 := by simpa [gap] using inside
            exact .inl (by omega)
          · exact .inr ⟨s, later, gap⟩

/-- What is laid down for an entry is as long as the entry asks for. -/
theorem complete_of_stands {hit : Page Mode × Entry Mode} (fits : m.entryFits hit = true)
    (stands : Pieces (m.Stands own C hit.2) hit.2.slots ops hit.1.gap pieces fault) (base : Int) :
    m.Complete own hit (pieces.flatMap (·.2.bytes m.config base .gap))
      (hit.2.opcode ||| placeAll (pieces.map fun p => (p.1, p.2.field)))
      (pieces.flatMap (·.2.bytes m.config base .payload)) := by
  obtain ⟨cells, small⟩ := gap_of_entryFits fits
  have short := opcodeLength_le_of_entryFits fits
  refine ⟨?_, ?_, short, ?_⟩
  · rw [cells]
    apply length_gap_of_stands stands base small
    rcases gapped_of_entryFits fits with none | ⟨s, member, -, signed, shape⟩
    · exact .inl none
    · exact .inr ⟨s, member, by simp [inGap, shape]⟩
  · rw [cells]
    exact length_payload_of_stands stands base
  · apply Entry.opcode_placeAll_lt (fieldsApart_of_entryFits fits)
    rw [← stands.slots_eq]
    simp

section Opcode

variable {R : Slot Mode → Operand Mode Reg → Nat → Piece → Option Cause → Prop}
  {hit : Page Mode × Entry Mode} {opcode : BitVec 32} (fits : m.entryFits hit = true)
  (laid : Pieces R hit.2.slots ops room pieces fault)
  (coded : opcode = hit.2.opcode ||| placeAll (pieces.map fun p => (p.1, p.2.field)))

include fits laid coded

/-- The fields of the pieces are read back from the opcode. -/
theorem read_of_pieces {piece : Piece} (present : (slot, piece) ∈ pieces) :
    slot.read opcode = piece.field.toNat % twoPow slot.width := by
  have short := opcodeLength_le_of_entryFits fits
  rw [coded]
  apply Entry.read_opcode_placeAll (fieldsApart_of_entryFits fits) (by omega)
  · rw [List.map_map]
    exact laid.slots_eq
  · exact List.mem_map_of_mem present

theorem covers_of_pieces : hit.2.covers opcode = true := by
  rw [coded]
  refine Entry.covers_placeAll ?_ (Entry.opcode_of_fieldsApart (fieldsApart_of_entryFits fits))
  rw [List.map_map]
  exact laid.slots_eq

end Opcode

theorem layout_of_stands {hit : Page Mode × Entry Mode}
    (stands : Pieces (m.Stands own C hit.2) hit.2.slots ops hit.1.gap pieces fault) (base : Int) :
    m.layout hit.1 hit.2 pieces base =
      m.instruction hit.1 (pieces.flatMap (·.2.bytes m.config base .gap))
        (hit.2.opcode ||| placeAll (pieces.map fun p => (p.1, p.2.field)))
        (pieces.flatMap (·.2.bytes m.config base .payload)) := by
  rw [layout, index_of_stands stands base, List.append_nil]
  rfl

end Layout

end Machine

end CrossAsm

import CrossAsm.Proofs.Encoding
import CrossAsm.Proofs.Line
import CrossAsm.Proofs.Trace

/-! Encoding what was decoded. An operand with the value it was decoded with is laid down in the
very bytes it was read from, so that an instruction without a fault is put together again. -/

namespace CrossAsm

variable {Mode Reg : Type} {m : Machine Mode Reg} {entry : Entry Mode}

/-- The address space is a multiple of what a byte holds, so the distance to a target that was
wrapped into it has the byte that the target was read from. -/
theorem Config.put_wrap_sub {c : Config} (wide : 8 ≤ c.addressBits) (base : Int)
    {byte : List UInt8} (one : byte.length = 1) :
    c.endian.put 1 (c.wrap (base + signExtend (c.endian.number byte) 8) - base) = byte := by
  have divides : (twoPow 8 : Int) ∣ twoPow (min c.addressBits 32) := by
    rw [twoPow_eq, twoPow_eq]
    exact Int.natCast_dvd_natCast.mpr (Nat.pow_dvd_pow 2 (by omega))
  have same : (c.wrap (base + signExtend (c.endian.number byte) 8) - base) % twoPow 8 =
      (c.endian.number byte : Int) % twoPow 8 := by
    rw [wrap, Int.sub_emod, Int.emod_emod_of_dvd _ divides, ← Int.sub_emod,
      add_sub_cancel_left, signExtend_emod]
  have back := @Endian.put_number c.endian byte (by omega)
  rw [one] at back
  rw [c.endian.put_congr (by decide) same, back]

namespace Machine

/-- A machine without displacements of variable length, whose other displacements are bytes and
whose numbers have the same length in every entry. -/
structure Compact (m : Machine Mode Reg) : Prop where
  flat : m.config.ladder = []
  wide : 8 ≤ m.config.addressBits
  rigid : ∀ mode relative, m.shape mode ≠ .ladder relative
  relative : ∀ mode width, m.shape mode = .relative width → width = .byte
  indexed : ∀ mode width signed, m.shape mode = .indexed width signed → width = .byte
  fixed : ∀ mode width, m.shape mode = .immediate width ∨ m.shape mode = .absolute width →
    width ≠ .sized

/-- The slot has a field if and only if its operands stand in the opcode. -/
def fieldFits (m : Machine Mode Reg) (slot : Slot Mode) : Bool :=
  match m.shape slot.mode with
  | .register | .custom => slot.width ≤ 32
  | .embedded _ | .bit => 0 < slot.width && slot.width ≤ 32
  | _ => slot.width == 0

end Machine

namespace Reading

/-- The piece stands in the bytes that the reading took. -/
structure Takes (r : Reading m entry) (base : Int) (piece : Piece) : Prop where
  field : r.slot.place piece.field = r.slot.place (BitVec.ofNat 32 (r.slot.read r.start.opcode))
  gap : r.start.gapBytes = piece.bytes m.config base .gap ++ r.stop.gapBytes
  gaps : piece.gaps = (piece.bytes m.config base .gap).length
  index : piece.bytes m.config base .index = []
  payload : r.stop.bytes = r.start.bytes ++ piece.bytes m.config base .payload
  narrow : ∀ e ∈ piece.extensions, e.narrow = true
  clean : ∀ e ∈ piece.extensions, (e.laid m.config base).2 = none

variable {r : Reading m entry} {base : Int}

theorem Takes.room {piece : Piece} (takes : r.Takes base piece) :
    r.start.gapBytes.length - piece.gaps = r.stop.gapBytes.length := by
  have gap := congrArg List.length takes.gap
  rw [List.length_append, ← takes.gaps] at gap
  omega

theorem takes_field {field : BitVec 32} (still : r.stop = r.start)
    (same : r.slot.place field = r.slot.place (BitVec.ofNat 32 (r.slot.read r.start.opcode))) :
    r.Takes base { field } where
  field := same
  gap := by simp [still, Piece.bytes]
  gaps := rfl
  index := rfl
  payload := by simp [still, Piece.bytes]
  narrow := by simp
  clean := by simp

theorem takes_payload {field : Field} {column n : Nat} (bare : r.slot.width = 0)
    (moved : r.stop = r.start.past n) (narrow : Extension.narrow ⟨.payload, field, column⟩ = true)
    (laid : Extension.laid m.config base ⟨.payload, field, column⟩ =
      (r.start.rest.take n, none)) :
    r.Takes base { extensions := [⟨.payload, field, column⟩] } where
  field := by simp only [Slot.place_of_width_zero bare]
  gap := by simp [moved, Piece.bytes, Extension.stageOf_singleton]
  gaps := rfl
  index := by simp [Piece.bytes, Extension.stageOf_singleton]
  payload := by simp [moved, Piece.bytes, Extension.stageOf_singleton, laid]
  narrow := by simpa using narrow
  clean := by simp [laid]

theorem takes_gap {field : Field} {column : Nat} (bare : r.slot.width = 0)
    (room : 1 ≤ r.start.gapBytes.length)
    (moved : r.stop = { r.start with gapBytes := r.start.gapBytes.drop 1 })
    (narrow : Extension.narrow ⟨.gap, field, column⟩ = true)
    (laid : Extension.laid m.config base ⟨.gap, field, column⟩ =
      (r.start.gapBytes.take 1, none)) :
    r.Takes base { extensions := [⟨.gap, field, column⟩] } where
  field := by simp only [Slot.place_of_width_zero bare]
  gap := by
    simp only [moved, Piece.bytes, Extension.stageOf_singleton, laid, if_true,
      List.take_append_drop]
  gaps := by
    simp [Piece.gaps, Piece.bytes, Extension.stageOf_singleton, laid, Nat.min_eq_left room]
  index := by simp [Piece.bytes, Extension.stageOf_singleton]
  payload := by simp [moved, Piece.bytes, Extension.stageOf_singleton]
  narrow := by simpa using narrow
  clean := by simp [laid]

end Reading

namespace Machine

/-- The operand is read from text as the one the reading found. -/
structure Echo (m : Machine Mode Reg) (entry : Entry Mode) (r : Reading m entry)
    (q : Operand Mode Reg) : Prop where
  known : q.undefined = false
  value : ∀ op, r.operand = some op → q.value = op.value
  register : m.shape r.slot.mode = .register →
    m.registerField r.slot.mode q = .ok (r.slot.read r.start.opcode)
  bounded : ∀ width, m.shape r.slot.mode = .absolute width →
    q.value < twoPow m.config.addressBits
  straight : ∀ width, m.shape r.slot.mode = .relative width →
    fitsSigned (q.value - r.stop.base) 8 = true
  custom : m.shape r.slot.mode = .custom → ∀ base, ∃ piece,
    m.Lays entry r.slot q r.start.gapBytes.length piece none ∧ r.Takes base piece

namespace Echo

variable {r : Reading m entry} {q : Operand Mode Reg} (echo : m.Echo entry r q)
  (fits : m.fieldFits r.slot = true) (clean : r.stop.fault = none)
  (config : r.start.config = m.config) (base : Int)

include echo

theorem lays_register (clean : r.stop.fault = none) (shape : m.shape r.slot.mode = .register) :
    ∃ piece, m.Lays entry r.slot q r.start.gapBytes.length piece none ∧ r.Takes base piece := by
  have field := echo.register shape
  refine ⟨{ field := BitVec.ofNat 32 (r.slot.read r.start.opcode) }, ?_,
    Reading.takes_field (stop_register shape clean) rfl⟩
  intro d _ _
  simp only [encodeOperand, shape, encodeRegister, field, Draft.embed_eq_lay]

include fits

theorem lays_embedded {signed : Bool} (shape : m.shape r.slot.mode = .embedded signed) :
    ∃ piece, m.Lays entry r.slot q r.start.gapBytes.length piece none ∧ r.Takes base piece := by
  obtain ⟨positive, word⟩ : 0 < r.slot.width ∧ r.slot.width ≤ 32 := by
    simpa [fieldFits, shape] using fits
  have decoded : m.decodeOperand entry r.slot r.index r.start = _ :=
    decodeOperand_embedded r.index shape
  have read := echo.value _ (by rw [Reading.operand, decoded])
  have bound := r.slot.read_lt r.start.opcode
  have inside : (if signed then fitsSigned q.value r.slot.width
      else fitsUnsigned q.value r.slot.width) = true := by
    cases signed with
    | true => simpa [read] using fitsSigned_signExtend _ positive
    | false =>
      simp only [read, Bool.false_eq_true, if_false,
        fitsUnsigned_iff (show r.slot.width < 63 by omega)]
      omega
  have same : q.value % twoPow r.slot.width =
      r.slot.read r.start.opcode % twoPow r.slot.width := by
    cases signed with
    | true => simpa [read] using signExtend_emod _ _
    | false => simp [read]
  refine ⟨{ field := BitVec.ofInt 32 q.value }, ?_,
    Reading.takes_field (by rw [Reading.stop, decoded]) (r.slot.place_ofInt word same)⟩
  intro d _ _
  simp only [encodeOperand, shape, encodeEmbedded, inside, Bool.or_true, if_true,
    Draft.embed_eq_lay]

theorem lays_bit (shape : m.shape r.slot.mode = .bit) :
    ∃ piece, m.Lays entry r.slot q r.start.gapBytes.length piece none ∧ r.Takes base piece := by
  obtain ⟨-, word⟩ : 0 < r.slot.width ∧ r.slot.width ≤ 32 := by
    simpa [fieldFits, shape] using fits
  have decoded : m.decodeOperand entry r.slot r.index r.start = _ :=
    decodeOperand_bit r.index shape
  have read : q.value = r.slot.read r.start.opcode := echo.value _ (by rw [Reading.operand, decoded])
  have bound := r.slot.read_lt r.start.opcode
  have inside : fitsUnsigned q.value r.slot.width = true := by
    rw [fitsUnsigned_iff (by omega)]
    omega
  refine ⟨{ field := BitVec.ofInt 32 q.value }, ?_,
    Reading.takes_field (by rw [Reading.stop, decoded]) (r.slot.place_ofInt word (by rw [read]))⟩
  intro d _ _
  simp only [encodeOperand, shape, encodeEmbedded, inside, Bool.or_true, if_true,
    Draft.embed_eq_lay]

include clean config

/-- A number behind the opcode is laid down in the bytes it was read from. -/
theorem lays_number {width : Width}
    (shape : m.shape r.slot.mode = .immediate width ∨ m.shape r.slot.mode = .absolute width) :
    ∃ piece, m.Lays entry r.slot q r.start.gapBytes.length piece none ∧ r.Takes base piece := by
  have bare : r.slot.width = 0 := by
    rcases shape with shape | shape <;> simpa [fieldFits, shape] using fits
  obtain ⟨n, sized, enough⟩ := enough_of_number r.index shape clean
  have short := Width.bytes?_le sized
  have decoded := decodeOperand_number r.index shape sized enough
  have read := echo.value _ (by rw [Reading.operand, decoded])
  simp only [config] at read
  have count := List.length_take_of_le enough
  have bound := m.config.endian.number_lt (r.start.rest.take n)
  rw [count] at bound
  have back := @Endian.put_number m.config.endian (r.start.rest.take n) (by omega)
  rw [count] at back
  refine ⟨{ extensions := [⟨.payload, .number q.value n m.config.endian, q.column⟩] }, ?_,
    Reading.takes_payload bare (by rw [Reading.stop, decoded]) (by simpa [Extension.narrow]) ?_⟩
  · intro d drafted _
    rcases shape with shape | shape
    · have inside : fitsUnsigned q.value (8 * n) = true := by
        rw [fitsUnsigned_iff (by omega)]
        omega
      simp only [encodeOperand, shape, sized, encodeNumber, inside, Bool.or_true, if_true,
        Draft.emit, drafted, d.extend_eq_lay r.slot]
    · have below := echo.bounded width shape
      have inside : fitsUnsigned q.value (min (8 * n) m.config.addressBits) = true := by
        rw [fitsUnsigned_iff (by omega)]
        rcases Nat.le_total (8 * n) m.config.addressBits with narrower | narrower
        · rw [Nat.min_eq_left narrower]
          omega
        · rw [Nat.min_eq_right narrower]
          omega
      simp only [encodeOperand, shape, sized, encodeNumber, drafted, inside, echo.known,
        Bool.or_true, if_true, Bool.false_eq_true, if_false, Draft.emit, d.extend_eq_lay r.slot]
  · rw [← back, read, Extension.laid_number]

/-- A target is laid down as its distance from the end of the instruction. -/
theorem lays_relative (compact : m.Compact) {width : Width}
    (shape : m.shape r.slot.mode = .relative width) (behind : base = r.stop.base) :
    ∃ piece, m.Lays entry r.slot q r.start.gapBytes.length piece none ∧ r.Takes base piece := by
  obtain rfl := compact.relative _ _ shape
  have bare : r.slot.width = 0 := by simpa [fieldFits, shape] using fits
  have enough : 1 ≤ r.start.rest.length := by
    simp only [Reading.stop, decodeOperand, shape, Width.bytes?] at clean
    exact Decoding.enough_of_readIn clean
  have decoded : m.decodeOperand entry r.slot r.index r.start = _ :=
    decodeOperand_relative r.index shape enough
  have moved : r.stop = r.start.past 1 := by rw [Reading.stop, decoded]
  have read := echo.value _ (by rw [Reading.operand, decoded])
  have inside := echo.straight _ shape
  have stopped : r.stop.config = m.config := by rw [moved, Decoding.past_config, config]
  simp only [Decoding.target, config, ← moved, ← behind, stopped] at read
  refine ⟨{ extensions := [⟨.payload, .relative q.value 1 false, q.column⟩] }, ?_,
    Reading.takes_payload bare moved rfl ?_⟩
  · intro d _ _
    simp only [encodeOperand, shape, Width.bytes?, echo.known, d.extend_eq_lay r.slot]
  · have laid : Extension.laid m.config base ⟨.payload, .relative q.value 1 false, q.column⟩ =
        (m.config.endian.put 1 (q.value - base),
          if fitsSigned (q.value - base) 8 then none else some .operandTooFar) := rfl
    rw [laid, behind, inside, if_pos rfl, ← behind, read,
      Config.put_wrap_sub compact.wide base (List.length_take_of_le enough)]

/-- A displacement goes back into the gap or behind the opcode, wherever it was read from. -/
theorem lays_indexed (compact : m.Compact) {width : Width} {signed : Bool}
    (shape : m.shape r.slot.mode = .indexed width signed) :
    ∃ piece, m.Lays entry r.slot q r.start.gapBytes.length piece none ∧ r.Takes base piece := by
  obtain rfl := compact.indexed _ _ _ shape
  have bare : r.slot.width = 0 := by simpa [fieldFits, shape] using fits
  have decoded : m.decodeOperand entry r.slot r.index r.start = _ :=
    decodeOperand_indexed r.index shape bare
  have read := echo.value _ (by rw [Reading.operand, decoded])
  have moved : r.stop = (r.start.readDisp 1).2 := by rw [Reading.stop, decoded]
  -- Where the displacement stands, its byte is the low byte of the value.
  have restored (byte : List UInt8) (one : byte.length = 1)
      (number : (r.start.readDisp 1).1 = m.config.endian.number byte) :
      m.config.endian.put 1 q.value = byte ∧
        (if signed then fitsSigned q.value 8 else fitsUnsigned q.value 8) = true := by
    have back := @Endian.put_number m.config.endian byte (by omega)
    have bound := m.config.endian.number_lt byte
    rw [one] at back
    rw [one, Nat.mul_one] at bound
    rw [number] at read
    cases signed with
    | true =>
      simp only [if_true] at read
      constructor
      · rw [read, @Endian.put_congr m.config.endian 1 _ _ (by decide) (signExtend_emod _ 8), back]
      · simpa [read] using fitsSigned_signExtend _ (by decide)
    | false =>
      simp only [Bool.false_eq_true, if_false] at read ⊢
      refine ⟨by rw [read, back], ?_⟩
      rw [fitsUnsigned_iff (by decide)]
      omega
  have lays (d : Draft) (drafted : d.config = m.config)
      (inside : (if signed then fitsSigned q.value 8 else fitsUnsigned q.value 8) = true) :
      m.encodeOperand entry r.slot q d = (d.lay r.slot 0#32
        [⟨d.dispStage, .number q.value 1 m.config.endian, q.column⟩], none) := by
    simp only [encodeOperand, shape, bare, Nat.lt_irrefl, if_false, Width.bytes?, Nat.mul_one,
      inside, encodeNumber, Bool.or_true, if_true, Draft.emit, drafted, d.extend_eq_lay r.slot]
  by_cases room : 1 ≤ r.start.gapBytes.length
  · have disp := Decoding.readDisp_gap room (by decide)
    rw [config] at disp
    obtain ⟨back, inside⟩ := restored _ (List.length_take_of_le room) (by rw [disp])
    refine ⟨{ extensions := [⟨.gap, .number q.value 1 m.config.endian, q.column⟩] }, ?_,
      Reading.takes_gap bare room (by rw [moved, disp, ← config]) rfl (by rw [← back, Extension.laid_number])⟩
    intro d drafted roomy
    rw [lays d drafted inside, d.dispStage_eq, roomy, if_pos (Nat.lt_of_succ_le room)]
  · have disp := Decoding.readDisp_rest room
    have enough : 1 ≤ r.start.rest.length := by
      rw [moved, disp] at clean
      exact Decoding.enough_of_readIn clean
    have number := Decoding.readIn_eq r.start r.start.config.endian enough (by decide)
    rw [Decoding.read, number, config] at disp
    obtain ⟨back, inside⟩ := restored _ (List.length_take_of_le enough) (by rw [disp])
    refine ⟨{ extensions := [⟨.payload, .number q.value 1 m.config.endian, q.column⟩] }, ?_,
      Reading.takes_payload bare (by rw [moved, disp]) rfl (by rw [← back, Extension.laid_number])⟩
    intro d drafted roomy
    rw [lays d drafted inside, d.dispStage_eq, roomy, if_neg (Nat.not_lt.mpr (by omega))]

/-- An operand is laid down in the bytes it was read from. -/
theorem lays (compact : m.Compact)
    (behind : ∀ width, m.shape r.slot.mode = .relative width → base = r.stop.base) :
    ∃ piece, m.Lays entry r.slot q r.start.gapBytes.length piece none ∧ r.Takes base piece := by
  cases shape : m.shape r.slot.mode with
  | implied =>
    have bare : r.slot.width = 0 := by simpa [fieldFits, shape] using fits
    have decoded : m.decodeOperand entry r.slot r.index r.start = _ :=
      decodeOperand_implied r.index shape
    refine ⟨{}, ?_, Reading.takes_field (by rw [Reading.stop, decoded])
      (by simp only [Slot.place_of_width_zero bare])⟩
    intro d _ _
    simp only [encodeOperand, shape, ← d.eq_lay]
  | register => exact echo.lays_register base clean shape
  | embedded signed => exact echo.lays_embedded fits base shape
  | bit => exact echo.lays_bit fits base shape
  | immediate width => exact echo.lays_number fits clean config base (.inl shape)
  | absolute width => exact echo.lays_number fits clean config base (.inr shape)
  | relative width => exact echo.lays_relative fits clean config base compact shape (behind _ shape)
  | indexed width signed => exact echo.lays_indexed fits clean config base compact shape
  | ladder relative => exact absurd shape (compact.rigid _ _)
  | custom => exact echo.custom shape base

end Echo

/-! ### Whole instructions -/

/-- The pieces stand in the bytes read between two states. -/
structure TakesAll (m : Machine Mode Reg) (start stop : Decoding) (base : Int)
    (pieces : List (Slot Mode × Piece)) : Prop where
  fields : placeAll (pieces.map fun p => (p.1, p.2.field)) =
    placeAll (pieces.map fun p => (p.1, BitVec.ofNat 32 (p.1.read start.opcode)))
  gap : start.gapBytes = pieces.flatMap (·.2.bytes m.config base .gap) ++ stop.gapBytes
  index : pieces.flatMap (·.2.bytes m.config base .index) = []
  payload : stop.bytes = start.bytes ++ pieces.flatMap (·.2.bytes m.config base .payload)
  narrow : ∀ p ∈ pieces, ∀ e ∈ p.2.extensions, e.narrow = true
  clean : ∀ p ∈ pieces, ∀ e ∈ p.2.extensions, (e.laid m.config base).2 = none

theorem TakesAll.nil (d : Decoding) (base : Int) : m.TakesAll d d base [] :=
  ⟨rfl, rfl, rfl, (List.append_nil _).symm, by simp, by simp⟩

theorem TakesAll.cons {r : Reading m entry} {piece : Piece} {stop : Decoding} {base : Int}
    {pieces : List (Slot Mode × Piece)} (follows : Decoding.Follows r.start r.stop)
    (first : r.Takes base piece) (rest : m.TakesAll r.stop stop base pieces) :
    m.TakesAll r.start stop base ((r.slot, piece) :: pieces) where
  fields := by
    simp only [List.map_cons, placeAll, first.field, rest.fields, follows.opcode]
  gap := by rw [List.flatMap_cons, List.append_assoc, ← rest.gap, ← first.gap]
  index := by rw [List.flatMap_cons, first.index, rest.index, List.nil_append]
  payload := by rw [List.flatMap_cons, rest.payload, first.payload, List.append_assoc]
  narrow := by
    intro p member
    rcases List.mem_cons.mp member with rfl | later
    · exact first.narrow
    · exact rest.narrow p later
  clean := by
    intro p member
    rcases List.mem_cons.mp member with rfl | later
    · exact first.clean
    · exact rest.clean p later

/-- Operands are laid down in the bytes they were read from. Only the last may be measured from
the end of the instruction. -/
theorem exists_laysAll (compact : m.Compact) (custom : m.CustomFollows)
    {slots : List (Slot Mode × Option UInt8)} {d : Decoding} {qs : List (Operand Mode Reg)}
    {base : Int} (fits : ∀ s ∈ slots, m.fieldFits s.1 = true) (config : d.config = m.config)
    (clean : (m.stopOf entry (m.readings entry slots d) d).fault = none)
    (last : ∀ s ∈ slots.dropLast, ∀ width, m.shape s.1.mode ≠ .relative width)
    (behind : base = (m.stopOf entry (m.readings entry slots d) d).base)
    (echoes : List.Forall₂ (m.Echo entry) (m.readings entry slots d) qs) :
    ∃ pieces, Pieces (m.Lays entry) (slots.map (·.1)) qs d.gapBytes.length pieces none ∧
      m.TakesAll d (m.stopOf entry (m.readings entry slots d) d) base pieces := by
  induction slots generalizing d qs with
  | nil =>
    cases echoes
    exact ⟨[], .nil _, .nil d base⟩
  | cons head slots ih =>
    obtain ⟨slot, index⟩ := head
    cases echoes with
    | @cons _ q _ qs echo echoes =>
      let r : Reading m entry := ⟨slot, index, d⟩
      have follows : Decoding.Follows d r.stop := decodeOperand_follows custom slot index d
      have later := @stopOf_follows _ _ m entry custom slots r.stop
      have final (width : Width) (shape : m.shape slot.mode = .relative width) :
          base = r.stop.base := by
        cases slots with
        | nil => exact behind
        | cons next slots => exact absurd shape (last (slot, index) (by simp) width)
      obtain ⟨piece, lays, takes⟩ := echo.lays (fits (slot, index) (by simp))
        (later.fault clean) config base compact final
      have inside (s : Slot Mode × Option UInt8) (member : s ∈ slots.dropLast) :
          s ∈ ((slot, index) :: slots).dropLast := by
        cases slots with
        | nil => simp at member
        | cons next slots => exact List.mem_cons_of_mem _ member
      obtain ⟨pieces, laysAll, takesAll⟩ := ih
        (fun s member => fits s (by simp [member])) (follows.config.trans config) clean
        (fun s member => last s (inside s member)) behind echoes
      refine ⟨(slot, piece) :: pieces, ?_, .cons follows takes takesAll⟩
      have both := Pieces.cons lays (takes.room ▸ laysAll)
      simpa using both

/-- A displacement that is read empties a gap of one byte. -/
theorem gapBytes_stopOf (custom : m.CustomFollows) {slots : List (Slot Mode × Option UInt8)}
    {d : Decoding} (small : d.gapBytes.length ≤ 1)
    (read : d.gapBytes = [] ∨ ∃ s ∈ slots, s.1.width = 0 ∧
      ∃ signed, m.shape s.1.mode = .indexed .byte signed) :
    (m.stopOf entry (m.readings entry slots d) d).gapBytes = [] := by
  induction slots generalizing d with
  | nil => simpa [readings, stopOf] using read
  | cons head slots ih =>
    obtain ⟨slot, index⟩ := head
    have follows : Decoding.Follows d (m.decodeOperand entry slot index d).2 :=
      decodeOperand_follows custom slot index d
    have shorter := follows.gap.length_le.trans small
    rcases read with empty | ⟨s, member, bare, signed, shape⟩
    · exact ih shorter (.inl (List.suffix_nil.mp (empty ▸ follows.gap)))
    · rcases List.mem_cons.mp member with rfl | later
      · apply ih shorter
        left
        simp only [decodeOperand_indexed index shape bare]
        by_cases room : 1 ≤ d.gapBytes.length
        · rw [Decoding.readDisp_gap room (by decide)]
          exact List.drop_eq_nil_of_le small
        · have empty : d.gapBytes = [] := List.length_eq_zero_iff.mp (by omega)
          exact List.suffix_nil.mp (empty ▸ (Decoding.readDisp_follows d 1).gap)
      · exact ih shorter (.inr ⟨s, later, bare, signed, shape⟩)

/-- The entry's fields are in order, only its last operand may be measured from the end of the
instruction, and one of them fills the gap if there is one. -/
def entryFits (m : Machine Mode Reg) (hit : Page Mode × Entry Mode) : Bool :=
  decide (m.opcodeLength hit.1 ≤ 4) && hit.2.fieldsApart (8 * m.opcodeLength hit.1) &&
    hit.2.slots.all m.fieldFits &&
    hit.2.slots.dropLast.all (fun s => match m.shape s.mode with
      | .relative _ => false
      | _ => true) &&
    (hit.1.gap == 0 || hit.1.gap == 1 && m.config.cell == .byte &&
      hit.2.slots.any fun s => s.width == 0 && match m.shape s.mode with
        | .indexed .byte _ => true
        | _ => false)

section Fits

variable {hit : Page Mode × Entry Mode} (fits : m.entryFits hit = true)

include fits

theorem opcodeLength_le_of_entryFits : m.opcodeLength hit.1 ≤ 4 := by
  simp only [entryFits, Bool.and_eq_true, decide_eq_true_eq] at fits
  exact fits.1.1.1.1

theorem fieldsApart_of_entryFits : hit.2.fieldsApart (8 * m.opcodeLength hit.1) = true := by
  simp only [entryFits, Bool.and_eq_true] at fits
  exact fits.1.1.1.2

theorem fieldFits_of_entryFits {s : Slot Mode} (member : s ∈ hit.2.slots) :
    m.fieldFits s = true := by
  simp only [entryFits, Bool.and_eq_true, List.all_eq_true] at fits
  exact fits.1.1.2 s member

theorem relative_of_entryFits {s : Slot Mode} (member : s ∈ hit.2.slots.dropLast) (width : Width) :
    m.shape s.mode ≠ .relative width := by
  simp only [entryFits, Bool.and_eq_true, List.all_eq_true] at fits
  intro shape
  have free := fits.1.2 s member
  simp [shape] at free

theorem gap_of_entryFits : m.gapLength hit.1 = hit.1.gap ∧ hit.1.gap ≤ 1 := by
  simp only [entryFits, Bool.and_eq_true, Bool.or_eq_true, beq_iff_eq] at fits
  rcases fits.2 with none | ⟨⟨one, cell⟩, -⟩
  · simp [gapLength, none]
  · simp [gapLength, one, cell, Cell.bytes]

theorem gapped_of_entryFits : hit.1.gap = 0 ∨ ∃ s ∈ hit.2.slots, s.width = 0 ∧
    ∃ signed, m.shape s.mode = .indexed .byte signed := by
  simp only [entryFits, Bool.and_eq_true, Bool.or_eq_true, beq_iff_eq, List.any_eq_true] at fits
  rcases fits.2 with none | ⟨-, s, member, bare, shape⟩
  · exact .inl none
  · refine .inr ⟨s, member, bare, ?_⟩
    split at shape
    next signed found => exact ⟨signed, found⟩
    · simp at shape

end Fits

/-- A decoded instruction is encoded in the bytes it was decoded from. -/
theorem encode_course (compact : m.Compact) (custom : m.CustomFollows) (unindexed : m.Unindexed)
    {hit : Page Mode × Entry Mode} (fits : m.entryFits hit = true) {rest : List UInt8}
    (hits : m.hits rest hit = true) {address : UInt32} {qs : List (Operand Mode Reg)}
    (clean : (m.finish hit rest address).fault = none)
    (echoes : List.Forall₂ (m.Echo hit.2) (m.course hit rest address) qs)
    (known : ∀ q ∈ qs, q.fault = none) :
    m.encode hit.1 hit.2 qs address = ⟨address, (m.finish hit rest address).bytes, none⟩ := by
  obtain ⟨gap, opcode, tail, rfl, gapped, coded⟩ := m.split_of_hits hits
  have short := opcodeLength_le_of_entryFits fits
  obtain ⟨cells, small⟩ := gap_of_entryFits fits
  have covered : hit.2.covers (BitVec.ofNat 32 (m.config.endian.number opcode)) = true := by
    rw [m.hits_append hit tail gapped coded, Bool.and_eq_true] at hits
    exact hits.1
  let start := m.decoding (m.foundAt hit (hit.1.lead ++ gap ++ opcode ++ tail)) address
    (hit.1.lead ++ gap ++ opcode ++ tail)
  have begins : start = _ := m.decoding_append hit address tail gapped coded
  have slots : m.indexed hit (hit.1.lead ++ gap ++ opcode ++ tail) address =
      (hit.2.slots.map fun s => (s, none), start) := readIndexes_eq unindexed hit.2.slots start
  simp only [finish, course, slots] at clean echoes ⊢
  have follows := @stopOf_follows _ _ m hit.2 custom (hit.2.slots.map fun s => (s, none)) start
  -- The gap is one byte at most, and an entry with a gap has a slot that takes it.
  have drained : (m.stopOf hit.2 (m.readings hit.2 (hit.2.slots.map fun s => (s, none)) start)
      start).gapBytes = [] := by
    apply gapBytes_stopOf custom
    · rw [begins, gapped, cells]
      exact small
    · rcases gapped_of_entryFits fits with none | ⟨s, member, bare, shape⟩
      · left
        rw [begins]
        exact List.length_eq_zero_iff.mp (by rw [gapped, cells, none])
      · exact .inr ⟨(s, Option.none), List.mem_map_of_mem member, bare, shape⟩
  obtain ⟨pieces, lays, takes⟩ := exists_laysAll compact custom
    (by
      intro s member
      obtain ⟨slot, present, rfl⟩ := List.mem_map.mp member
      exact fieldFits_of_entryFits fits present)
    (by rw [begins]) clean
    (by
      intro s member
      rw [← List.map_dropLast] at member
      obtain ⟨slot, present, rfl⟩ := List.mem_map.mp member
      exact relative_of_entryFits fits present)
    rfl echoes
  -- From here on only the state at the end counts, not the way there.
  generalize m.stopOf hit.2 (m.readings hit.2 (hit.2.slots.map fun s => (s, none)) start) start =
    stop at clean follows drained takes ⊢
  have own : (hit.2.slots.map fun s => (s, (none : Option UInt8))).map (·.1) = hit.2.slots := by
    simp [Function.comp_def]
  rw [own] at lays
  have restored : hit.2.opcode ||| placeAll (pieces.map fun p => (p.1, p.2.field)) =
      BitVec.ofNat 32 (m.config.endian.number opcode) := by
    have back := Entry.eq_placeAll_of_covers covered
    rw [← lays.slots_eq, List.map_map] at back
    rw [takes.fields, begins]
    exact back
  have number : (BitVec.ofNat 32 (m.config.endian.number opcode)).toNat =
      m.config.endian.number opcode := by
    rw [BitVec.toNat_ofNat]
    exact Nat.mod_eq_of_lt (m.config.endian.number_lt_word (by omega))
  have bytes : m.layout hit.1 hit.2 pieces stop.base = stop.bytes := by
    have gaps := takes.gap
    have written := @Endian.put_number m.config.endian opcode (by omega)
    rw [begins, drained, List.append_nil] at gaps
    rw [coded, opcodeLength] at written
    rw [layout, restored, number, written, takes.index, takes.payload, ← gaps, begins,
      List.append_nil]
  rw [← bytes]
  have room : start.gapBytes.length = hit.1.gap := by rw [begins, gapped, cells]
  have measured : (m.draft hit.1 hit.2 address).base stop.bytes.length = stop.base := by
    have config : stop.config = m.config := by rw [follows.config, begins]
    have placed : stop.address = address := by rw [follows.address, begins]
    simp only [Draft.base, draft, Decoding.base, Decoding.consumed, config, placed] <;> rfl
  exact encode_eq_of_clean (by simp [Config.steady, compact.flat]) short (room ▸ lays) takes.narrow
    takes.clean (by rw [bytes, measured]) known

/-- The text of the operand that was read is read as `q`, in whatever column it stands. -/
def Rewrites (m : Machine Mode Reg) (entry : Entry Mode) (rendering : Rendering)
    (r : Reading m entry) (q : Operand Mode Reg) : Prop :=
  ∃ op, r.operand = some op ∧ (∀ column, m.Echo entry r { q with column }) ∧
    m.ParsesAs rendering.scope (m.formatOperand rendering op).toList q

/-- The texts of the operands that were read are read one by one. -/
theorem parses_of_reads {rendering : Rendering} {readings : List (Reading m entry)}
    {qs : List (Operand Mode Reg)}
    (reads : List.Forall₂ (fun r q => ∃ op, r.operand = some op ∧
      m.ParsesAs rendering.scope (m.formatOperand rendering op).toList q) readings qs) :
    List.Forall₂ (m.ParsesAs rendering.scope)
      (((readings.filterMap (·.operand)).map (m.formatOperand rendering)).map String.toList) qs := by
  induction reads with
  | nil => exact .nil
  | cons first _ ih =>
    obtain ⟨op, read, parses⟩ := first
    simp only [List.filterMap_cons, read, List.map_cons]
    exact .cons parses ih

theorem Rewrites.echo {rendering : Rendering} {r : Reading m entry} {q : Operand Mode Reg}
    (rewrites : m.Rewrites entry rendering r q) : m.Echo entry r q := by
  obtain ⟨op, -, echo, -⟩ := rewrites
  exact echo q.column

theorem Rewrites.column {rendering : Rendering} {r : Reading m entry} {q : Operand Mode Reg}
    (rewrites : m.Rewrites entry rendering r q) (column : Nat) :
    m.Rewrites entry rendering r { q with column } := by
  obtain ⟨op, read, echo, parses⟩ := rewrites
  exact ⟨op, read, echo, parses.starts, parses.parsed, parses.clean⟩

/-- The text of a decoded instruction is assembled to its bytes, once every operand is restored and
the name leads back to the entry. -/
theorem assemble_decoded (compact : m.Compact) (custom : m.CustomFollows)
    (unindexed : m.Unindexed) (untidied : ∀ ops, m.tidy ops = ops) (symbols : Symbols)
    (style : Style) {r : Reader} {hit : Page Mode × Entry Mode} (fits : m.entryFits hit = true)
    (found : m.ownEntries.find? (m.hits r.rest) = some hit)
    (clean : (m.finish hit r.rest r.address).fault = none) (proper : isName hit.2.name = true)
    {R : Reading m hit.2 → Operand Mode Reg → Prop}
    (rewrites : ∀ reading q, R reading q →
      m.Rewrites hit.2 (m.rendering symbols style r.address) reading q)
    (stable : ∀ reading q column, R reading q → R reading { q with column })
    (each : ∀ reading ∈ m.course hit r.rest r.address, ∃ q, R reading q)
    (named : ∀ read, List.Forall₂ R (m.course hit r.rest r.address) read →
      ∀ name, Text.upper name = hit.2.name → m.findByName name read = .ok hit ∧
        m.check hit.2 read = none) :
    m.assemble symbols (m.decode symbols style r).1.text r.address =
      ⟨r.address, (m.decode symbols style r).1.bytes, none⟩ := by
  obtain ⟨qs, related⟩ := exists_forall₂ each
  have parses := parses_of_reads (related.imp fun reading q holds => by
    obtain ⟨op, read, -, parses⟩ := rewrites reading q holds
    exact ⟨op, read, parses⟩)
  obtain ⟨read, moved, line⟩ := m.parseLine_lineOf symbols r.address
    (isIdentifier_case proper (m.rendering symbols style r.address)) parses
  have restored := Operand.forall₂_moved stable related moved
  obtain ⟨back, checked⟩ := named read restored _ (upper_case_of_isName proper _)
  have parsed := line hit.1 hit.2 back checked
  have silent : ∀ q ∈ read, q.fault = none := by
    intro q member
    obtain ⟨reading, -, holds⟩ := exists_left_of_forall₂ restored member
    obtain ⟨op, -, -, reads⟩ := rewrites reading q holds
    exact reads.clean
  have encoded := encode_course compact custom unindexed fits (List.find?_some found) clean
    (restored.imp fun reading q holds => (rewrites reading q holds).echo) silent
  rw [text_eq_lineOf, decode_eq symbols style found]
  simp only [untidied, assemble, parsed, encoded]

/-- What holds of every encoding of the operands that the text of a decoded instruction is read as
holds of its assembly. -/
theorem assemble_text_induction (symbols : Symbols) (style : Style) {r : Reader}
    {hit : Page Mode × Entry Mode} (found : m.ownEntries.find? (m.hits r.rest) = some hit)
    (proper : isName hit.2.name = true) {qs : List (Operand Mode Reg)}
    (parses : List.Forall₂ (m.ParsesAs (m.rendering symbols style r.address).scope)
      (((m.tidy ((m.course hit r.rest r.address).filterMap (·.operand))).map
        (m.formatOperand (m.rendering symbols style r.address))).map String.toList) qs)
    {P : Assembled → Prop}
    (encodes : ∀ read, List.Forall₂ Operand.Moved qs read → (∀ q ∈ read, q.fault = none) →
      ∀ name, Text.upper name = hit.2.name → ∃ other, m.findByName name read = .ok other ∧
        m.check other.2 read = none ∧ P (m.encode other.1 other.2 read r.address)) :
    P (m.assemble symbols (m.decode symbols style r).1.text r.address) := by
  obtain ⟨read, moved, line⟩ := m.parseLine_lineOf symbols r.address
    (isIdentifier_case proper (m.rendering symbols style r.address)) parses
  have silent : ∀ q ∈ read, q.fault = none := by
    intro q member
    obtain ⟨source, present, same⟩ := exists_left_of_forall₂ moved member
    obtain ⟨text, -, reading⟩ := exists_left_of_forall₂ parses present
    rw [same]
    exact reading.clean
  obtain ⟨other, back, checked, encoded⟩ :=
    encodes read moved silent _
      (upper_case_of_isName proper (m.rendering symbols style r.address))
  rw [text_eq_lineOf, decode_eq symbols style found]
  simpa only [assemble, line other.1 other.2 back checked] using encoded

/-- The text of a decoded instruction is assembled as its operands are read, to another entry
perhaps than the one decoded. -/
theorem assemble_text_eq (symbols : Symbols) (style : Style) {r : Reader}
    {hit : Page Mode × Entry Mode} (found : m.ownEntries.find? (m.hits r.rest) = some hit)
    (proper : isName hit.2.name = true) {qs : List (Operand Mode Reg)}
    (parses : List.Forall₂ (m.ParsesAs (m.rendering symbols style r.address).scope)
      (((m.tidy ((m.course hit r.rest r.address).filterMap (·.operand))).map
        (m.formatOperand (m.rendering symbols style r.address))).map String.toList) qs)
    {assembled : Assembled}
    (encodes : ∀ read, List.Forall₂ Operand.Moved qs read → (∀ q ∈ read, q.fault = none) →
      ∀ name, Text.upper name = hit.2.name → ∃ other, m.findByName name read = .ok other ∧
        m.check other.2 read = none ∧ m.encode other.1 other.2 read r.address = assembled) :
    m.assemble symbols (m.decode symbols style r).1.text r.address = assembled :=
  assemble_text_induction (P := (· = assembled)) symbols style found proper parses encodes

end Machine

end CrossAsm

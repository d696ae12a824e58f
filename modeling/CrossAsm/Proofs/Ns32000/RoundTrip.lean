import CrossAsm.Proofs.Ns32000.Restore
import CrossAsm.Target

/-! Decoding an instruction of the NS32000 and assembling its text gives the same instruction with
every displacement in its shortest form. -/

namespace CrossAsm.Ns32000

open Text

/-! ### One operand -/

variable {entry : Entry Mode}

/-- The piece takes the place of what a reading found. -/
structure Retakes (r : Reading machine entry) (base : Int) (piece : Piece) : Prop where
  field : r.slot.place piece.field = r.slot.place (BitVec.ofNat 32 (r.slot.read r.start.opcode))
  index : piece.bytes config base .index = r.index.toList
  payload : ∃ taken, r.stop.bytes = r.start.bytes ++ taken ∧
    Repacks taken (piece.bytes config base .payload)
      (∀ x, displacementOf? r = some x → x.IsShortest)
  clean : ∀ e ∈ piece.extensions, e.narrow = true ∧ (e.laid config base).2 = none

/-- The operand that a reading found is written as `q`, and `q` is laid down in its place. -/
structure Renews (rendering : Rendering) (base : Int) (r : Reading machine entry)
    (q : Operand Mode Reg) : Prop where
  accepted : accepts r.slot.mode q.mode = true
  operand : r.operand = some { decodedAs r.slot.mode q with column := r.start.bytes.length }
  parses : machine.ParsesAs rendering.scope
    (formatOperand rendering (decodedAs r.slot.mode q)).toList q
  pieces : ∀ column room, ∃ piece,
    machine.Returns base ComesBack entry r.slot { q with column } room piece none ∧
      Retakes r base piece

section Reading

variable {r : Reading machine entry} (style : Style) {address : UInt32}

/-- What the displacement of a reading asks for, once its operand and its bytes are known. -/
theorem shortest_iff {op : Operand Mode Reg} {taken : List UInt8} (read : r.operand = some op)
    (moved : r.stop.bytes = r.start.bytes ++ taken) :
    (∀ x, displacementOf? r = some x → x.IsShortest) ↔
      ∀ kind, kind? op.mode = some kind →
        Displacement.IsShortest ⟨kind, r.start.readLadder.1, taken.length⟩ := by
  simp [displacementOf?, read, moved]

theorem bytes_of_past {taken : List UInt8} (ahead : taken <+: r.start.rest)
    (moved : r.stop = r.start.past taken.length) : r.stop.bytes = r.start.bytes ++ taken := by
  rw [moved, Decoding.past_bytes, ← List.prefix_iff_eq_take.mp ahead]

section Plain

variable (plain : r.index = none)

include plain

/-- A constant in the opcode. -/
theorem exists_renews_quick (quick : r.slot.mode = .quick) (narrow : r.slot.width = 4) :
    ∃ q, Renews (machine.rendering ∅ style address) address.toNat r q := by
  have shape : machine.shape r.slot.mode = .embedded true := by rw [quick]; rfl
  have decoded : machine.decodeOperand entry r.slot r.index r.start = _ :=
    Machine.decodeOperand_embedded r.index shape
  have fits := fitsSigned_signExtend (r.slot.read r.start.opcode) (show 0 < 4 by decide)
  have kept := signExtend_emod (r.slot.read r.start.opcode) 4
  have range := fitsSigned_iff.mp fits
  rw [show (twoPow (4 - 1) : Int) = 8 from rfl] at range
  simp only [if_true, narrow, quick] at decoded
  generalize signExtend (r.slot.read r.start.opcode) 4 = v at decoded fits kept range
  have signed : Signed (machine.rendering ∅ style address).scope
      ((machine.rendering ∅ style address).num v).toList v := signed_num rfl (by omega) (by omega)
  refine ⟨{ mode := .imm, value := v, column := 0 }, ?_⟩
  exact
    { accepted := by rw [quick]; rfl
      operand := by rw [Reading.operand, decoded, quick]; rfl
      parses := by
        rw [quick]
        exact (parses_number signed).parses
      pieces := fun column room => by
        refine ⟨{ field := BitVec.ofInt 32 v }, returns_behind (fun d _ _ => ?_) (by simp) ?_ _ ?_, ?_⟩
        · simp only [Machine.encodeOperand, shape, if_true, Machine.encodeEmbedded, narrow, fits,
            Bool.or_true, ← d.embed_eq_lay]
        · rw [quick]
          rfl
        · intro d more _ field _
          have word := Machine.toNat_ofInt_mod v (show 4 ≤ 32 by decide)
          rw [narrow] at field
          have back : signExtend (r.slot.read d.opcode) 4 = v := by
            apply signExtend_of_fitsSigned (by decide) fits
            rw [field, word, Int.emod_emod_of_dvd _ (dvd_refl _)]
          refine ⟨_, (Machine.decodeOperand_embedded none shape).trans
            (by simp [Piece.bytes]; rfl), fun _ => ?_⟩
          simp only [ComesBack, narrow, back, quick]
          rfl
        · have moved : r.stop.bytes = r.start.bytes ++ [] := by
            rw [Reading.stop, decoded, List.append_nil]
          refine ⟨r.slot.place_ofInt (by omega) (by rw [narrow]; exact kept), ?_, ?_, by simp⟩
          · rw [plain]
            rfl
          · refine ⟨[], moved, .refl [] ?_⟩
            rw [shortest_iff (by rw [Reading.operand, decoded]) moved]
            exact fun kind => by simp [kind?] }

section Behind

variable (same : r.start.config = config) (clean : r.stop.fault = none)

include same clean

/-- A displacement without a general operand. -/
theorem exists_renews_ladder {relative : Bool} (shape : machine.shape r.slot.mode = .ladder relative)
    (bare : r.slot.width = 0) (measured : r.start.base = address.toNat)
    (near : relative = true → 0 ≤ address.toNat + r.start.readLadder.1 ∧
      address.toNat + r.start.readLadder.1 < 0x1000000) :
    ∃ q, Renews (machine.rendering ∅ style address) address.toNat r q := by
  have category : r.slot.mode = .disp ∧ relative = true ∨ r.slot.mode = .dispAbs ∧ relative = false := by
    change Ns32000.shape r.slot.mode = _ at shape
    cases mode : r.slot.mode <;> simp_all [Ns32000.shape]
  have decoded (d : Decoding) (index : Option UInt8) : machine.decodeOperand entry r.slot index d =
      (some { mode := r.slot.mode
              value := if relative then d.readLadder.2.target d.readLadder.1 else d.readLadder.1
              column := d.bytes.length }, d.readLadder.2) := by
    simp only [Machine.decodeOperand, shape]
  obtain ⟨v, taken, new, relaid⟩ := exists_relaid same
    (show r.start.readLadder.2.fault = none by rwa [Reading.stop, decoded] at clean)
  have low := relaid.low
  have high := relaid.high
  rw [relaid.read] at near
  -- The value that is written leads back to the displacement.
  obtain ⟨value, leads, signed, target⟩ : ∃ value : Int,
      v = (if relative then value - address.toNat else value) ∧
      Signed (machine.rendering ∅ style address).scope
        (formatOperand (machine.rendering ∅ style address)
          { mode := r.slot.mode, value, column := 0 }).toList value ∧
      ∀ (d : Decoding) (k : Nat), d.config = config → d.base = address.toNat →
        (if relative then (d.past k).target v else v) = value := by
    rcases category with ⟨mode, rfl⟩ | ⟨mode, rfl⟩
    · obtain ⟨above, below⟩ := near rfl
      refine ⟨address.toNat + v, by simp, ?_, fun d k same measured => ?_⟩
      · have place := (machine.rendering ∅ style address).denotes_target rfl above
          (by simp only at below ⊢; omega)
        rw [mode]
        exact signed_of_denotes rfl place
      · rw [← measured] at above below ⊢
        exact target_eq same above below
    · refine ⟨v, rfl, ?_, fun _ _ _ _ => rfl⟩
      rw [mode]
      exact signed_displacement style address low high
  have written : accepts r.slot.mode .imm = true ∧ ∀ column, decodedAs r.slot.mode
      ({ mode := .imm, value, column } : Operand Mode Reg) = { mode := r.slot.mode, value, column } := by
    rcases category with ⟨mode, -⟩ | ⟨mode, -⟩ <;> rw [mode] <;> exact ⟨rfl, fun _ => rfl⟩
  have read : machine.decodeOperand entry r.slot r.index r.start =
      (some { mode := r.slot.mode, value, column := r.start.bytes.length },
        r.start.past taken.length) := by
    rw [decoded, relaid.read, target _ _ same measured]
  refine ⟨{ mode := .imm, value, column := 0 }, ?_⟩
  exact
    { accepted := written.1
      operand := by rw [Reading.operand, read, written.2]
      parses := by
        rw [written.2]
        exact (parses_number signed).parses
      pieces := fun column room => by
        let q : Operand Mode Reg := { mode := .imm, value, column }
        have laid := relaid.laid q relative address.toNat rfl rfl leads
        have bytes : Piece.bytes { extensions := [displacement q relative] } config address.toNat
            .payload = new := by
          rw [Piece.bytes, Extension.stageOf_singleton, laid]
          exact if_pos rfl
        refine ⟨{ extensions := [displacement q relative] },
          returns_behind (fun d _ _ => ?_) ?_ ?_ _ ?_, ?_⟩
        · simp only [Machine.encodeOperand, shape, d.extend_eq_lay r.slot]
          rfl
        · intro e member
          rw [List.mem_singleton.mp member]
          rfl
        · rcases category with ⟨mode, -⟩ | ⟨mode, -⟩ <;> rw [mode] <;> rfl
        · intro d more same _ ahead
          rw [bytes] at ahead ⊢
          have reads := relaid.back d more same ahead
          refine ⟨_, by rw [decoded, reads], fun measured => ?_⟩
          simp only [ComesBack, target d _ same measured]
          rw [written.2]
        · have moved := bytes_of_past relaid.ahead (congrArg Prod.snd read)
          refine ⟨?_, ?_, ⟨taken, moved, ?_⟩, ?_⟩
          · simp only [Slot.place_of_width_zero bare]
          · rw [plain]
            simp [Piece.bytes, Extension.stageOf_singleton, displacement]
          · rw [bytes, shortest_iff (congrArg Prod.fst read) moved, relaid.read]
            obtain ⟨kind, present⟩ : ∃ kind, kind? r.slot.mode = some kind := by
              rcases category with ⟨mode, -⟩ | ⟨mode, -⟩ <;> rw [mode] <;> exact ⟨_, rfl⟩
            exact relaid.repacks_of_kind present
          · intro e member
            rw [List.mem_singleton.mp member]
            exact ⟨rfl, by rw [laid]⟩ }

omit same in
/-- A register list. -/
theorem exists_renews_list (list : r.slot.mode = .list ∨ r.slot.mode = .listRev)
    (bare : r.slot.width = 0) :
    ∃ q, Renews (machine.rendering ∅ style address) address.toNat r q := by
  -- Both slots read a byte; they differ in the order of its bits.
  obtain ⟨order, involutive, decoded, encoded⟩ : ∃ order : BitVec 8 → BitVec 8,
      (∀ b, order (order b) = b) ∧
      (∀ index d, machine.decodeOperand entry r.slot index d =
        (some { mode := .regList, list := order (BitVec.ofNat 8 (d.read 1).1)
                column := d.bytes.length }, (d.read 1).2)) ∧
      ∀ (q : Operand Mode Reg) (d : Draft), d.config = config → machine.encodeOperand entry r.slot q d =
        (d.lay r.slot 0#32 [⟨.payload, .number (order q.list).toNat 1 config.endian, q.column⟩],
          none) := by
    rcases list with mode | mode
    · refine ⟨id, fun _ => rfl, fun index d => ?_, fun q d same => ?_⟩
      · simp [Machine.decodeOperand, mode, machine, shape, decodeCustom]
      · rw [← same, ← d.extend_eq_lay r.slot]
        simp [Machine.encodeOperand, mode, machine, shape, encodeCustom, Draft.emit]
    · refine ⟨BitVec.reverse, by decide, fun index d => ?_, fun q d same => ?_⟩
      · simp [Machine.decodeOperand, mode, machine, shape, decodeCustom]
      · rw [← same, ← d.extend_eq_lay r.slot]
        simp [Machine.encodeOperand, mode, machine, shape, encodeCustom, Draft.emit]
  have enough : 1 ≤ r.start.rest.length := by
    rw [Reading.stop, decoded] at clean
    exact @Decoding.enough_of_readIn r.start r.start.config.endian 1 clean
  obtain ⟨byte, rest, ahead⟩ := List.exists_cons_of_length_pos enough
  have number (d : Decoding) (more : List UInt8) (ahead : d.rest = byte :: more) :
      d.read 1 = (byte.toNat, d.past 1) := by
    rw [Decoding.read, d.readIn_eq _ (by simp [ahead]) (by decide), ahead]
    simp
  have kept : (BitVec.ofNat 8 byte.toNat).toNat = byte.toNat := by simp
  have read : machine.decodeOperand entry r.slot r.index r.start =
      (some { mode := .regList, list := order (BitVec.ofNat 8 byte.toNat)
              column := r.start.bytes.length }, r.start.past [byte].length) := by
    rw [decoded, number _ _ ahead]
    rfl
  have written : accepts r.slot.mode .regList = true ∧ ∀ q : Operand Mode Reg,
      decodedAs r.slot.mode q = q := by
    rcases list with mode | mode <;> rw [mode] <;> exact ⟨rfl, fun _ => rfl⟩
  refine ⟨{ mode := .regList, list := order (BitVec.ofNat 8 byte.toNat), column := 0 }, ?_⟩
  exact
    { accepted := written.1
      operand := by rw [Reading.operand, read, written.2]
      parses := by
        rw [written.2]
        exact parses_formatList _ _
      pieces := fun column room => by
        have bytes : Piece.bytes { extensions := [⟨.payload, .number byte.toNat 1 config.endian,
            column⟩] } config address.toNat .payload = [byte] := by
          simp [Piece.bytes, Extension.stageOf_singleton, Extension.laid_number, Endian.put_byte]
        refine ⟨{ extensions := [⟨.payload, .number byte.toNat 1 config.endian, column⟩] },
          returns_behind (fun d same _ => ?_) ?_ ?_ _ ?_, ?_⟩
        · rw [encoded _ d same, involutive, kept]
        · intro e member
          rw [List.mem_singleton.mp member]
        · rcases list with mode | mode <;> rw [mode] <;> rfl
        · intro d more _ _ ahead
          rw [bytes] at ahead ⊢
          refine ⟨_, by rw [decoded, number _ _ ahead]; rfl, fun _ => ?_⟩
          rw [ComesBack, written.2]
        · have moved := bytes_of_past ⟨rest, ahead.symm⟩ (congrArg Prod.snd read)
          refine ⟨?_, ?_, ⟨[byte], moved, ?_⟩, ?_⟩
          · simp only [Slot.place_of_width_zero bare]
          · rw [plain]
            simp [Piece.bytes, Extension.stageOf_singleton]
          · rw [bytes, shortest_iff (congrArg Prod.fst read) moved]
            exact .refl _ fun kind => by simp [kind?]
          · intro e member
            rw [List.mem_singleton.mp member]
            exact ⟨rfl, rfl⟩ }

end Behind

end Plain

/-- The index that a byte stands for, of the size that the field in the opcode tells. -/
def Scales (field : Nat) (index : Option UInt8) (scaled : Option (Reg × Size)) : Prop :=
  index = none ∧ scaled = none ∨ ∃ b reg, index = some b ∧ scaled = some (reg, scaleOf field) ∧
    general[b.toNat % 8]? = some reg ∧ reg.isGeneral = true ∧ reg.number = b.toNat % 8

theorem exists_scales (field : Nat) (index : Option UInt8) : ∃ scaled,
    Scales field index scaled ∧ IsScale scaled ∧ scaled.isSome = index.isSome := by
  cases index with
  | none => exact ⟨none, .inl ⟨rfl, rfl⟩, nofun, rfl⟩
  | some b =>
    obtain ⟨reg, found, general, number⟩ := general_of_lt (b.toNat % 8) (Nat.mod_lt _ (by decide))
    refine ⟨some (reg, scaleOf field), .inr ⟨b, reg, rfl, rfl, found, general, number⟩, ?_, rfl⟩
    rintro index size ⟨⟩
    exact ⟨general, scaleCode?_scaleOf field⟩

theorem decodeGen_eq {slot : Slot Mode} {index : Option UInt8} {d : Decoding} {gen : Nat}
    (field : (index.map fun b => b.toNat / 8).getD (slot.read d.opcode) = gen)
    (allowed : refuses slot.mode gen = false) {scaled : Option (Reg × Size)}
    (scales : Scales (slot.read d.opcode) index scaled) :
    decodeGen entry slot index d =
      ((decodeBase entry slot.mode gen index.isSome d).1.map fun back => indexing back scaled,
        (decodeBase entry slot.mode gen index.isSome d).2) := by
  simp only [decodeGen, field, allowed, Bool.false_eq_true, if_false]
  rcases scales with ⟨rfl, rfl⟩ | ⟨b, reg, rfl, rfl, found, -, -⟩
  · cases read : (decodeBase entry slot.mode gen none.isSome d) with
    | mk back next => cases back <;> rfl
  · cases read : (decodeBase entry slot.mode gen (some b).isSome d) with
    | mk back next =>
      cases back with
      | none => rfl
      | some back => simp [indexing, found]

section General

variable {n gen : Nat} {rendering : Rendering} {base : Int} {q : Operand Mode Reg}
  {scaled : Option (Reg × Size)}
  (rebuilds : Rebuilds entry r.slot.mode gen scaled.isSome rendering base r.start n q)
  (proper : IsScale scaled) (scales : Scales (r.slot.read r.start.opcode) r.index scaled)
  (field : (r.index.map fun b => b.toNat / 8).getD (r.slot.read r.start.opcode) = gen)
  (announced : r.index.isSome = decide (genScaled ≤ r.slot.read r.start.opcode))
  (wide : r.slot.width = 5)

include rebuilds proper scales field announced wide

/-- The field and the index byte of a general operand are those it was read from. -/
theorem head_of_rebuilds : let piece := pieceOf gen (tailOf r.slot.mode n q) (indexing q scaled)
    piece.bytes config base .index = r.index.toList ∧
      piece.field.toNat % twoPow 5 = r.slot.read r.start.opcode := by
  intro piece
  have formed := formed_indexing rebuilds.plain proper
  have small : gen < genScaled := by
    have small := genOf_lt formed r.slot.mode
    rwa [genOf_indexing, rebuilds.field] at small
  have bound : r.slot.read r.start.opcode < 32 := by
    have bound := r.slot.read_lt r.start.opcode
    rwa [wide] at bound
  rcases scales with ⟨none, rfl⟩ | ⟨b, reg, some, rfl, -, -, number⟩
  · rw [none] at field ⊢
    rcases index_pieceOf (behind_tailOf q r.slot.mode n) formed small base with
      ⟨-, bytes, whole⟩ | ⟨index, b, indexed, -⟩
    · exact ⟨bytes, whole.trans field.symm⟩
    · simp [indexing, rebuilds.plain.unindexed] at indexed
  · rw [some] at field announced ⊢
    rcases index_pieceOf (behind_tailOf q r.slot.mode n) formed small base with
      ⟨unindexed, -⟩ | ⟨index, b', indexed, bytes, upper, lower, high, scale⟩
    · simp [indexing] at unindexed
    · obtain rfl : reg = index := by simpa [indexing] using indexed
      have same : b' = b := by
        apply UInt8.toNat_inj.mp
        have quotient : b.toNat / 8 = gen := field
        omega
      refine ⟨by rw [bytes, same]; rfl, ?_⟩
      have most := Nat.mod_lt piece.field.toNat (show 0 < twoPow 5 by decide)
      exact scaleOf_inj _ most _ bound high (by simpa using announced.symm) scale

theorem retakes_of_rebuilds (decoded : machine.decodeOperand entry r.slot r.index r.start =
      ((decodeBase entry r.slot.mode gen scaled.isSome r.start).1.map fun back => indexing back scaled,
        (decodeBase entry r.slot.mode gen scaled.isSome r.start).2)) :
    Retakes r base (pieceOf gen (tailOf r.slot.mode n q) (indexing q scaled)) := by
  obtain ⟨index, opcode⟩ := head_of_rebuilds rebuilds proper scales field announced wide
  obtain ⟨taken, ahead, found, repacks⟩ := rebuilds.found
  have bound := r.slot.read_lt r.start.opcode
  rw [found] at decoded
  have moved := bytes_of_past ahead (congrArg Prod.snd decoded)
  refine ⟨?_, index, ⟨taken, moved, ?_⟩, ?_⟩
  · apply Slot.place_congr
    rw [Machine.toNat_ofNat_mod (by omega) bound, wide, opcode]
  · rw [payload_pieceOf, shortest_iff (congrArg Prod.fst decoded) moved, mode_indexing]
    exact repacks
  · intro e member
    unfold pieceOf at member
    split at member
    · rcases List.mem_append.mp member with own | last
      · exact rebuilds.clean e own
      · rw [List.mem_singleton.mp last]
        exact ⟨rfl, rfl⟩
    · exact rebuilds.clean e member

end General

/-- A general operand that is read without a fault is what its field stands for, with its index. -/
theorem exists_base (general : isGen r.slot.mode = true) (clean : r.stop.fault = none) :
    ∃ gen scaled, (r.index.map fun b => b.toNat / 8).getD (r.slot.read r.start.opcode) = gen ∧
      Scales (r.slot.read r.start.opcode) r.index scaled ∧ IsScale scaled ∧
      refuses r.slot.mode gen = false ∧
      machine.decodeOperand entry r.slot r.index r.start =
        ((decodeBase entry r.slot.mode gen scaled.isSome r.start).1.map fun back =>
            indexing back scaled,
          (decodeBase entry r.slot.mode gen scaled.isSome r.start).2) ∧
      (decodeBase entry r.slot.mode gen scaled.isSome r.start).2.fault = none := by
  obtain ⟨gen, field⟩ : ∃ gen, (r.index.map fun b => b.toNat / 8).getD
      (r.slot.read r.start.opcode) = gen := ⟨_, rfl⟩
  obtain ⟨scaled, scales, proper, indexed⟩ := exists_scales (r.slot.read r.start.opcode) r.index
  have allowed : refuses r.slot.mode gen = false := by
    by_contra refused
    rw [Bool.not_eq_false] at refused
    rw [Reading.stop, decodeOperand_general general] at clean
    simp only [decodeGen, field, refused, if_true] at clean
    exact Decoding.fail_fault_ne_none _ _ clean
  have decoded : machine.decodeOperand entry r.slot r.index r.start = _ :=
    (decodeOperand_general general r.index r.start).trans (decodeGen_eq field allowed scales)
  rw [← indexed] at decoded
  rw [Reading.stop, decoded] at clean
  exact ⟨gen, scaled, field, scales, proper, allowed, decoded, clean⟩

/-- A general operand. -/
theorem exists_renews_general (general : isGen r.slot.mode = true) (wide : r.slot.width = 5)
    (sized : r.slot.mode = .gen → ∃ n, Width.sized.bytes? entry.size = some n)
    (announced : r.index.isSome = hasIndexByte r.slot.mode (r.slot.read r.start.opcode))
    (same : r.start.config = config) (measured : r.start.base = address.toNat)
    (clean : r.stop.fault = none)
    (reach : ∀ x, displacementOf? r = some x → x.InReach address) :
    ∃ q, Renews (machine.rendering ∅ style address) address.toNat r q := by
  simp only [hasIndexByte, general, Bool.true_and] at announced
  obtain ⟨gen, scaled, field, scales, proper, allowed, decoded, silent⟩ := exists_base general clean
  obtain ⟨n, q, rebuilds⟩ := rebuilt_of_clean style address general sized same measured allowed
    silent fun op kind read present => by
      apply reach ⟨kind, r.start.readLadder.1, r.stop.bytes.length - r.start.bytes.length⟩
      simp [displacementOf?, Reading.operand, decoded, read, mode_indexing, present]
  obtain ⟨taken, -, found, -⟩ := (rebuilds 0).found
  refine ⟨indexing q scaled, ?_⟩
  exact
    { accepted := by
        rw [mode_indexing]
        exact (rebuilds 0).accepted
      operand := by
        rw [Reading.operand, decoded, found, decodedAs_indexing, ← indexing_column,
          decodedAs_column]
        rfl
      parses := by
        rw [decodedAs_indexing]
        exact parses_indexing (decodedAs_unindexed _ (rebuilds q.column).plain.unindexed)
          (rebuilds q.column).text proper
      pieces := fun column room => by
        rw [← indexing_column]
        exact ⟨_, returns_indexing (rebuilds column) proper general wide allowed room,
          retakes_of_rebuilds (rebuilds column) proper scales field announced wide decoded⟩ }

end Reading

/-! ### Whole instructions -/

/-- An index byte is read for a slot exactly if its field announces one. -/
theorem isSome_of_readIndexes {slots : List (Slot Mode)} {d : Decoding} {s : Slot Mode × Option UInt8}
    (member : s ∈ (machine.readIndexes slots d).1) :
    s.1 ∈ slots ∧ s.2.isSome = hasIndexByte s.1.mode (s.1.read d.opcode) := by
  induction slots generalizing d with
  | nil => simp [Machine.readIndexes] at member
  | cons slot slots ih =>
    have opcode : d.byte.2.opcode = d.opcode := (Decoding.byte_follows d).opcode
    unfold Machine.readIndexes at member
    split at member
    next announced =>
      rcases List.mem_cons.mp member with rfl | later
      · exact ⟨by simp, announced.symm⟩
      · obtain ⟨among, same⟩ := ih later
        exact ⟨by simp [among], by rw [same, opcode]⟩
    next plain =>
      rcases List.mem_cons.mp member with rfl | later
      · exact ⟨by simp, (Bool.eq_false_iff.mpr plain).symm⟩
      · obtain ⟨among, same⟩ := ih later
        exact ⟨by simp [among], same⟩

/-- Without a fault the index bytes are just those that were read. -/
theorem bytes_of_readIndexes {slots : List (Slot Mode)} {d : Decoding}
    (clean : (machine.readIndexes slots d).2.fault = none) :
    (machine.readIndexes slots d).2.bytes =
      d.bytes ++ (machine.readIndexes slots d).1.flatMap (·.2.toList) := by
  induction slots generalizing d with
  | nil => simp [Machine.readIndexes]
  | cons slot slots ih =>
    unfold Machine.readIndexes at clean ⊢
    split
    next announced =>
      rw [if_pos announced] at clean
      have rest := ih clean
      cases ahead : d.rest with
      | nil =>
        have lost : d.byte.2 = d.fail .noMemory := by simp [Decoding.byte, ahead]
        have fault := (machine.readIndexes_follows slots d.byte.2).fault clean
        rw [lost] at fault
        exact absurd fault (Decoding.fail_fault_ne_none d _)
      | cons b behind =>
        rw [Decoding.byte_cons ahead] at rest ⊢
        simp [rest, ahead]
    next plain =>
      rw [if_neg plain] at clean
      simpa using ih clean

/-- What is read for a slot is read from the instruction's own address, and its index byte is there
if its field announces one. -/
theorem mem_course {hit : Page Mode × Entry Mode} {rest : List UInt8} {address : UInt32}
    {r : Reading machine hit.2} (member : r ∈ machine.course hit rest address) :
    r.slot ∈ hit.2.slots ∧
      r.index.isSome = hasIndexByte r.slot.mode (r.slot.read r.start.opcode) ∧
      r.start.config = config ∧ r.start.base = address.toNat ∧
      Decoding.Follows r.stop (machine.finish hit rest address) := by
  obtain ⟨among, start, stop⟩ := Machine.mem_readings customFollows member
  obtain ⟨present, announced⟩ := isSome_of_readIndexes among
  have follows := (machine.readIndexes_follows hit.2.slots
    (machine.decoding (machine.foundAt hit rest) address rest)).trans start
  have same : r.start.config = config := follows.config
  have place : r.start.address = address := follows.address
  rw [← follows.opcode] at announced
  exact ⟨present, announced, same, by simp [Decoding.base, same, config, place], stop⟩

section Course

variable {hit : Page Mode × Entry Mode} (own : hit ∈ machine.ownEntries) {rest : List UInt8}
  {address : UInt32} (clean : (machine.finish hit rest address).fault = none)

include own clean

/-- An operand of a decoded instruction is written so that it takes its place again. -/
theorem exists_renews_of_reach (style : Style) {r : Reading machine hit.2}
    (member : r ∈ machine.course hit rest address)
    (reach : ∀ x, displacementOf? r = some x → x.InReach address) :
    ∃ q, Renews (machine.rendering ∅ style address) address.toNat r q := by
  obtain ⟨present, announced, same, measured, stop⟩ := mem_course member
  have proper := proper_of_own own present
  have silent : r.stop.fault = none := stop.fault clean
  have fits := Machine.fieldFits_of_entryFits (entryFits_of_own own) present
  have unindexed (other : isGen r.slot.mode = false) : r.index = none := by
    simpa [hasIndexByte, other] using announced
  have near (relative : kind? r.slot.mode = some .relative) (shape : machine.shape r.slot.mode =
      .ladder true) : 0 ≤ address.toNat + r.start.readLadder.1 ∧
        address.toNat + r.start.readLadder.1 < 0x1000000 := by
    apply (reach
      ⟨.relative, r.start.readLadder.1, r.stop.bytes.length - r.start.bytes.length⟩ ?_).2 rfl
    simp [displacementOf?, Reading.operand, Machine.decodeOperand, shape, relative]
  cases mode : r.slot.mode with
  | gen | genW | genA =>
    have general : isGen r.slot.mode = true := by rw [mode]; rfl
    exact exists_renews_general style general (proper.general general) proper.sized announced same
      measured silent reach
  | quick => exact exists_renews_quick style (unindexed (by rw [mode]; rfl)) mode (proper.quick mode)
  | disp =>
    have shape : machine.shape r.slot.mode = .ladder true := by rw [mode]; rfl
    exact exists_renews_ladder style (unindexed (by rw [mode]; rfl)) same silent shape
      (by simpa [Machine.fieldFits, shape] using fits) measured
      fun _ => near (by rw [mode]; rfl) shape
  | dispAbs =>
    have shape : machine.shape r.slot.mode = .ladder false := by rw [mode]; rfl
    exact exists_renews_ladder style (unindexed (by rw [mode]; rfl)) same silent shape
      (by simpa [Machine.fieldFits, shape] using fits) measured (by simp)
  | list =>
    exact exists_renews_list style (unindexed (by rw [mode]; rfl)) silent (.inl mode)
      (width_of_list own present (.inl mode))
  | listRev =>
    exact exists_renews_list style (unindexed (by rw [mode]; rfl)) silent (.inr mode)
      (width_of_list own present (.inr mode))
  | reg | regRel | space | imm | abs | tos | regList | pcrel =>
    have category := proper.category
    rw [mode] at category
    exact absurd category (by decide)

theorem exists_renews (style : Style)
    (reach : ∀ r ∈ machine.course hit rest address, ∀ x, displacementOf? r = some x →
      x.InReach address)
    {r : Reading machine hit.2} (member : r ∈ machine.course hit rest address) :
    ∃ q, Renews (machine.rendering ∅ style address) address.toNat r q :=
  exists_renews_of_reach own clean style member (reach r member)

end Course

/-- The pieces take the place of what was read between two states. -/
structure RetakesAll (start stop : Decoding) (slots : List (Slot Mode × Option UInt8)) (base : Int)
    (pieces : List (Slot Mode × Piece)) (shortest : Prop) : Prop where
  fields : placeAll (pieces.map fun p => (p.1, p.2.field)) =
    placeAll (pieces.map fun p => (p.1, BitVec.ofNat 32 (p.1.read start.opcode)))
  index : pieces.flatMap (·.2.bytes config base .index) = slots.flatMap (·.2.toList)
  payload : ∃ taken, stop.bytes = start.bytes ++ taken ∧
    Repacks taken (pieces.flatMap (·.2.bytes config base .payload)) shortest
  clean : ∀ p ∈ pieces, ∀ e ∈ p.2.extensions, e.narrow = true ∧ (e.laid config base).2 = none

/-- Operand by operand, the instruction is put together again. -/
theorem exists_retakesAll {rendering : Rendering} {base : Int}
    {slots : List (Slot Mode × Option UInt8)} {d : Decoding} {qs read : List (Operand Mode Reg)}
    (renews : List.Forall₂ (Renews rendering base) (machine.readings entry slots d) qs)
    (moved : List.Forall₂ Operand.Moved qs read) (room : Nat) :
    ∃ pieces, Pieces (machine.Returns base ComesBack entry) (slots.map (·.1)) read room pieces none ∧
      RetakesAll d (machine.stopOf entry (machine.readings entry slots d) d) slots base pieces
        (∀ r ∈ machine.readings entry slots d, ∀ x, displacementOf? r = some x → x.IsShortest) := by
  induction slots generalizing d qs read room with
  | nil =>
    cases renews
    cases moved
    exact ⟨[], .nil room, rfl, rfl, ⟨[], (List.append_nil _).symm, .refl [] (by simp [Machine.readings])⟩,
      by simp⟩
  | cons head slots ih =>
    obtain ⟨slot, index⟩ := head
    let r : Reading machine entry := ⟨slot, index, d⟩
    have follows : Decoding.Follows d r.stop := Machine.decodeOperand_follows customFollows slot index d
    cases renews with
    | @cons _ q _ qs first others =>
      cases moved with
      | @cons _ q' _ read same moved =>
        obtain ⟨piece, returns, retakes⟩ := first.pieces q'.column room
        obtain ⟨pieces, more, rest⟩ := ih others moved (room - piece.gaps)
        rw [show { q with column := q'.column } = q' from same.symm] at returns
        refine ⟨(slot, piece) :: pieces, Pieces.cons_clean returns more, ?_⟩
        obtain ⟨taken, start, repacks⟩ := retakes.payload
        obtain ⟨behind, stop, later⟩ := rest.payload
        have field : slot.place piece.field = slot.place (BitVec.ofNat 32 (slot.read d.opcode)) :=
          retakes.field
        have indexes : piece.bytes config base .index = index.toList := retakes.index
        -- What is asked of all readings is asked of the first and of the others.
        have both : (∀ s ∈ machine.readings entry ((slot, index) :: slots) d, ∀ x,
            displacementOf? s = some x → x.IsShortest) ↔
              (∀ x, displacementOf? r = some x → x.IsShortest) ∧
                ∀ s ∈ machine.readings entry slots r.stop, ∀ x,
                  displacementOf? s = some x → x.IsShortest := by
          simp [Machine.readings, r]
        rw [both]
        exact
          { fields := by
              have opcode : r.stop.opcode = d.opcode := follows.opcode
              have others := rest.fields
              rw [show Reading.stop ⟨slot, index, d⟩ = r.stop from rfl, opcode] at others
              simp only [List.map_cons, placeAll, field, others]
            index := by rw [List.flatMap_cons, List.flatMap_cons, indexes, rest.index]
            payload := by
              refine ⟨taken ++ behind, ?_, ?_⟩
              · rw [← List.append_assoc, ← start]
                exact stop
              · rw [List.flatMap_cons]
                exact repacks.append later
            clean := by
              intro p member
              rcases List.mem_cons.mp member with rfl | later
              · exact retakes.clean
              · exact rest.clean p later }

section Whole

variable {hit : Page Mode × Entry Mode} (own : hit ∈ machine.ownEntries) {rest : List UInt8}
  (hits : machine.hits rest hit = true) {address : UInt32}
  (clean : (machine.finish hit rest address).fault = none) {rendering : Rendering}
  {qs read : List (Operand Mode Reg)}
  (renews : List.Forall₂ (Renews rendering address.toNat) (machine.course hit rest address) qs)
  (moved : List.Forall₂ Operand.Moved qs read)

include own hits clean renews moved

/-- The instruction is its entry with pieces that come back, in bytes that repack those decoded. -/
theorem exists_pieces : ∃ pieces,
    Pieces (machine.Returns address.toNat ComesBack hit.2) hit.2.slots read hit.1.gap pieces none ∧
      (∀ p ∈ pieces, ∀ e ∈ p.2.extensions, e.narrow = true ∧
        (e.laid config address.toNat).2 = none) ∧
      Repacks (machine.finish hit rest address).bytes
        (machine.layout hit.1 hit.2 pieces address.toNat)
        (∀ r ∈ machine.course hit rest address, ∀ x, displacementOf? r = some x → x.IsShortest) := by
  obtain ⟨gap, opcode, tail, rfl, gapped, coded⟩ := machine.split_of_hits hits
  obtain ⟨lead, gapless, -⟩ := page_of_own own
  have short := Machine.opcodeLength_le_of_entryFits (entryFits_of_own own)
  let memory := hit.1.lead ++ gap ++ opcode ++ tail
  let start := machine.decoding (machine.foundAt hit memory) address memory
  have begins : start = _ := machine.decoding_append hit address tail gapped coded
  have slots : (machine.indexed hit memory address).1.map (·.1) = hit.2.slots := by
    have pairs := machine.slots_readings hit.2 (machine.indexed hit memory address).1
      (machine.indexed hit memory address).2
    rw [← pairs, List.map_map]
    exact machine.slots_course hit memory address
  obtain ⟨pieces, returns, retakes⟩ := exists_retakesAll renews moved hit.1.gap
  rw [slots] at returns
  refine ⟨pieces, returns, retakes.clean, ?_⟩
  -- The opcode is that of the entry with the fields it was found with.
  have covered : hit.2.covers (BitVec.ofNat 32 (machine.config.endian.number opcode)) = true := by
    rw [machine.hits_append hit tail gapped coded, Bool.and_eq_true] at hits
    exact hits.1
  have held : (machine.indexed hit memory address).2.opcode =
      BitVec.ofNat 32 (machine.config.endian.number opcode) := by
    rw [Machine.indexed, (machine.readIndexes_follows hit.2.slots start).opcode, begins]
  have restored : hit.2.opcode ||| placeAll (pieces.map fun p => (p.1, p.2.field)) =
      BitVec.ofNat 32 (machine.config.endian.number opcode) := by
    have back := Entry.eq_placeAll_of_covers covered
    rw [← returns.slots_eq, List.map_map] at back
    rw [retakes.fields, held]
    exact back
  have number : (BitVec.ofNat 32 (machine.config.endian.number opcode)).toNat =
      machine.config.endian.number opcode := by
    rw [BitVec.toNat_ofNat]
    exact Nat.mod_eq_of_lt (machine.config.endian.number_lt_word (by omega))
  have written := @Endian.put_number machine.config.endian opcode (by omega)
  rw [coded] at written
  obtain ⟨taken, stop, repacks⟩ := retakes.payload
  -- Index bytes are read between the opcode and everything else.
  have indexes : (machine.indexed hit memory address).2.bytes =
      opcode ++ (machine.indexed hit memory address).1.flatMap (·.2.toList) := by
    have silent := (Machine.stopOf_follows customFollows (machine.indexed hit memory address).1
      (machine.indexed hit memory address).2).fault clean
    have read : (machine.indexed hit memory address).2.bytes = _ := bytes_of_readIndexes silent
    have empty : gap = [] := List.length_eq_zero_iff.mp (by
      rw [gapped, Machine.gapLength, gapless, Nat.zero_mul])
    have head : start.bytes = opcode := by rw [begins, lead, empty]; rfl
    rw [read, ← head]
    rfl
  have whole : (machine.finish hit memory address).bytes =
      opcode ++ (machine.indexed hit memory address).1.flatMap (·.2.toList) ++ taken := by
    rw [← indexes]
    exact stop
  have layout : machine.layout hit.1 hit.2 pieces address.toNat =
      opcode ++ (machine.indexed hit memory address).1.flatMap (·.2.toList) ++
        pieces.flatMap (·.2.bytes config address.toNat .payload) := by
    have plain := Machine.layout_of_returns returns []
    have index : pieces.flatMap (·.2.bytes machine.config address.toNat .index) =
        (machine.indexed hit memory address).1.flatMap (·.2.toList) := retakes.index
    rw [List.append_nil, restored, number, written, lead, index] at plain
    simp only [List.nil_append, List.append_nil, List.append_assoc] at plain ⊢
    exact plain
  rw [whole, layout]
  exact repacks.prepend _

end Whole

/-! ### The text of an instruction -/

/-- The operands of an instruction as they are written. -/
def textsOf (rendering : Rendering) (slots : List (Slot Mode)) (qs : List (Operand Mode Reg)) :
    List String :=
  (slots.zip qs).map fun w => formatOperand rendering (decodedAs w.1.mode w.2)

theorem textsOf_moved (rendering : Rendering) (slots : List (Slot Mode))
    {qs read : List (Operand Mode Reg)} (moved : List.Forall₂ Operand.Moved qs read) :
    textsOf rendering slots read = textsOf rendering slots qs := by
  induction moved generalizing slots with
  | nil => rfl
  | @cons q q' qs read same _ ih =>
    cases slots with
    | nil => rfl
    | cons slot slots =>
      have first : formatOperand rendering (decodedAs slot.mode q') =
          formatOperand rendering (decodedAs slot.mode q) := by
        rw [show q' = _ from same, decodedAs_column, formatOperand_column]
      simpa [textsOf, first] using ih slots

theorem texts_of_renews {rendering : Rendering} {base : Int} {rs : List (Reading machine entry)}
    {qs : List (Operand Mode Reg)} (renews : List.Forall₂ (Renews rendering base) rs qs) :
    (rs.filterMap (·.operand)).map (formatOperand rendering) =
      textsOf rendering (rs.map (·.slot)) qs := by
  induction renews with
  | nil => rfl
  | @cons r q rs qs first _ ih =>
    simp only [List.filterMap_cons, first.operand, List.map_cons, ih, formatOperand_column]
    rfl

theorem texts_of_comesBack (rendering : Rendering) {slots : List (Slot Mode)}
    {qs : List (Operand Mode Reg)} {rs : List (Reading machine entry)}
    (back : List.Forall₂ (fun (written : Slot Mode × Operand Mode Reg) r => ∃ back,
      r.operand = some back ∧ ComesBack written.1 written.2 back) (slots.zip qs) rs) :
    (rs.filterMap (·.operand)).map (formatOperand rendering) = textsOf rendering slots qs := by
  unfold textsOf
  generalize slots.zip qs = written at back ⊢
  induction back with
  | nil => rfl
  | cons first _ ih =>
    obtain ⟨back, read, same⟩ := first
    simp only [List.filterMap_cons, read, List.map_cons, ih]
    rw [show back = _ from same, formatOperand_column]

theorem parses_of_renews {rendering : Rendering} {base : Int} {rs : List (Reading machine entry)}
    {qs : List (Operand Mode Reg)} (renews : List.Forall₂ (Renews rendering base) rs qs) :
    List.Forall₂ (machine.ParsesAs rendering.scope)
      (((rs.filterMap (·.operand)).map (formatOperand rendering)).map String.toList) qs := by
  induction renews with
  | nil => exact .nil
  | cons first _ ih =>
    simp only [List.filterMap_cons, first.operand, List.map_cons, formatOperand_column]
    exact .cons first.parses ih

/-- No other entry has the name, so the text leads back to the entry it came from. -/
theorem findByName_own {hit : Page Mode × Entry Mode} (own : hit ∈ machine.ownEntries) {name : String}
    (same : Text.upper name = hit.2.name) {read : List (Operand Mode Reg)}
    (accepted : List.Forall₂ (fun slot op => machine.accepts slot.mode op.mode = true)
      hit.2.slots read) : machine.findByName name read = .ok hit := by
  obtain ⟨first, -, found, named, -, rfl | apart⟩ := machine.findByName_eq_ok table_named own same
    (machine.admits_of_forall₂ accepted)
  · exact found
  · exact absurd named apart

theorem accepted_of_renews {rendering : Rendering} {base : Int} {rs : List (Reading machine entry)}
    {qs read : List (Operand Mode Reg)} (renews : List.Forall₂ (Renews rendering base) rs qs)
    (moved : List.Forall₂ Operand.Moved qs read) :
    List.Forall₂ (fun slot op => machine.accepts slot.mode op.mode = true) (rs.map (·.slot)) read := by
  induction renews generalizing read with
  | nil =>
    cases moved
    exact .nil
  | cons first _ ih =>
    cases moved with
    | @cons _ q' _ _ same moved =>
      refine .cons ?_ (ih moved)
      rw [show q' = _ from same]
      exact first.accepted

section Assembled

variable {hit : Page Mode × Entry Mode} (own : hit ∈ machine.ownEntries) {address : UInt32}
  {read : List (Operand Mode Reg)} {pieces : List (Slot Mode × Piece)}
  (returns : Pieces (machine.Returns address.toNat ComesBack hit.2) hit.2.slots read hit.1.gap
    pieces none)

include own returns

/-- Pieces in order are the encoding of their operands. -/
theorem encode_pieces
    (clean : ∀ p ∈ pieces, ∀ e ∈ p.2.extensions, e.narrow = true ∧
      (e.laid config address.toNat).2 = none) (silent : ∀ q ∈ read, q.fault = none) :
    machine.encode hit.1 hit.2 read address =
      ⟨address, machine.layout hit.1 hit.2 pieces address.toNat, none⟩ :=
  Machine.encode_eq_of_clean rfl (Machine.opcodeLength_le_of_entryFits (entryFits_of_own own))
    (returns.imp fun _ _ _ _ _ related => related.lays)
    (fun p member e among => (clean p member e among).1)
    (fun p member e among => (clean p member e among).2) rfl silent

/-- The encoding is decoded to the text of its operands. -/
theorem decode_pieces (style : Style) (suffix : List UInt8) :
    let bytes := machine.layout hit.1 hit.2 pieces address.toNat
    let rendering := machine.rendering ∅ style address
    (machine.decode ∅ style (Memory.reader ⟨address, bytes ++ suffix, .byte⟩)).1 =
      { address, bytes, mnemonic := rendering.case hit.2.name
        operands := textsOf rendering hit.2.slots read, fault := none } := by
  intro bytes rendering
  obtain ⟨-, gapless, plain⟩ := page_of_own own
  obtain ⟨hits, clean, whole, back⟩ := Machine.finish_of_returns returns suffix
    (entryFits_of_own own) gapless plain customFollows address
  let r := Memory.reader ⟨address, bytes ++ suffix, .byte⟩
  have place : r.address = address := Memory.address_reader _
  have found : machine.ownEntries.find? (machine.hits r.rest) = some hit := find?_of_hits own hits
  have texts := texts_of_comesBack rendering (back rfl rfl)
  rw [Machine.decode_eq ∅ style found, place]
  simp only [r, Memory.rest_reader, bytes, clean, whole]
  exact congrArg (Decoded.mk address _ _ · none) texts

end Assembled

/-- Bytes that repack a decoded instruction and read the same. -/
structure Renewed (style : Style) (r : Reader) (hit : Page Mode × Entry Mode) (bytes : List UInt8) :
    Prop where
  repacks : Repacks (machine.finish hit r.rest r.address).bytes bytes
    (∀ s ∈ machine.course hit r.rest r.address, ∀ x, displacementOf? s = some x → x.IsShortest)
  again : ∀ suffix, (machine.decode ∅ style (Memory.reader ⟨r.address, bytes ++ suffix, .byte⟩)).1 =
    { (machine.decode ∅ style r).1 with bytes := bytes }

/-- The text of an instruction is assembled to bytes that renew it, once its operands are written
so that they take their place again. -/
theorem assemble_renewed (style : Style) {r : Reader} {hit : Page Mode × Entry Mode}
    (found : machine.ownEntries.find? (machine.hits r.rest) = some hit)
    (clean : (machine.finish hit r.rest r.address).fault = none) {qs : List (Operand Mode Reg)}
    (renews : List.Forall₂ (Renews (machine.rendering ∅ style r.address) r.address.toNat)
      (machine.course hit r.rest r.address) qs) :
    ∃ bytes, machine.assemble ∅ (machine.decode ∅ style r).1.text r.address =
      ⟨r.address, bytes, none⟩ ∧ Renewed style r hit bytes := by
  have own := List.mem_of_find?_eq_some found
  have hits := List.find?_some found
  have slots := machine.slots_course hit r.rest r.address
  refine Machine.assemble_text_induction
    (P := fun a => ∃ bytes, a = ⟨r.address, bytes, none⟩ ∧ Renewed style r hit bytes) ∅ style found
    (name_of_own own) (parses_of_renews renews) fun read moved silent name same => ?_
  have accepted := accepted_of_renews renews moved
  rw [slots] at accepted
  obtain ⟨pieces, returns, laid, repacks⟩ := exists_pieces own hits clean renews moved
  refine ⟨hit, findByName_own own same accepted, rfl, _, encode_pieces own returns laid silent,
    repacks, fun suffix => ?_⟩
  -- Both decodings show the operands that the text was read as.
  have texts := (texts_of_renews renews).trans
    ((congrArg (textsOf _ · qs) slots).trans (textsOf_moved _ hit.2.slots moved).symm)
  rw [decode_pieces own returns style suffix, Machine.decode_eq ∅ style found]
  simp only [clean]
  exact congrArg (Decoded.mk r.address _ _ · none) texts.symm

end CrossAsm.Ns32000

namespace CrossAsm.Target

/-- The NS32000 assembles the text of what it decodes to an instruction that reads the same and is
never longer. The bytes are those decoded exactly where every displacement had its shortest form. -/
theorem ns32000_assembles_decoded (style : Style) (r : Reader)
    (clean : (ns32000.decode ∅ style r).1.fault = none)
    (reach : ∀ x ∈ Ns32000.displacements r.address r.rest, x.InReach r.address) :
    ∃ bytes, ns32000.assemble ∅ (ns32000.decode ∅ style r).1.text r.address =
        ⟨r.address, bytes, none⟩ ∧
      bytes.length ≤ (ns32000.decode ∅ style r).1.bytes.length ∧
      (bytes = (ns32000.decode ∅ style r).1.bytes ↔
        ∀ x ∈ Ns32000.displacements r.address r.rest, x.IsShortest) ∧
      ∀ suffix, let memory : Memory := ⟨r.address, bytes ++ suffix, .byte⟩
        let again := (ns32000.decode ∅ style memory.reader).1
        again.fault = none ∧ again.bytes = bytes ∧
          again.text = (ns32000.decode ∅ style r).1.text := by
  obtain ⟨hit, found⟩ := Machine.exists_hit_of_decode clean
  have decoded := Machine.decode_eq ∅ style found
  have own := List.mem_of_find?_eq_some found
  rw [Ns32000.displacements_eq found] at reach ⊢
  have silent : (Ns32000.machine.finish hit r.rest r.address).fault = none := by
    rw [← clean]
    exact (congrArg (·.1.fault) decoded).symm
  have whole : (ns32000.decode ∅ style r).1.bytes =
      (Ns32000.machine.finish hit r.rest r.address).bytes := congrArg (·.1.bytes) decoded
  simp only [List.mem_filterMap, forall_exists_index, and_imp] at reach ⊢
  obtain ⟨qs, renews⟩ := exists_forall₂ fun s member =>
    Ns32000.exists_renews own silent style (fun s member x found => reach x s member found) member
  obtain ⟨bytes, assembled, ⟨repacks, again⟩⟩ := Ns32000.assemble_renewed style found silent renews
  refine ⟨bytes, assembled, ?_, ?_, fun suffix => ?_⟩
  · rw [whole]
    exact repacks.length_le
  · rw [whole, repacks.eq_iff]
    exact ⟨fun shortest x s member found => shortest s member x found,
      fun shortest s member x found => shortest x s member found⟩
  · have same := again suffix
    constructor
    · exact (congrArg (·.fault) same).trans clean
    · exact ⟨congrArg (·.bytes) same, congrArg (·.text) same⟩

/-- A branch whose displacement takes two bytes where one holds it. -/
theorem ns32000_assembles_decoded_branch :
    let style : Style := { relative := false, lowercase := true }
    let r := Memory.reader ⟨0x1000, [0xEA, 0x80, 0x10], .byte⟩
    Ns32000.displacements r.address r.rest = [⟨.relative, 16, 2⟩] ∧
      ∃ bytes, ns32000.assemble ∅ (ns32000.decode ∅ style r).1.text r.address =
          ⟨r.address, bytes, none⟩ ∧
        bytes.length ≤ (ns32000.decode ∅ style r).1.bytes.length ∧
        bytes ≠ (ns32000.decode ∅ style r).1.bytes := by
  intro style r
  have stored : Ns32000.displacements r.address r.rest = [⟨.relative, 16, 2⟩] := by decide
  obtain ⟨bytes, assembled, shorter, same, -⟩ :=
    ns32000_assembles_decoded style r (by decide) (by rw [stored]; decide)
  refine ⟨stored, bytes, assembled, shorter, fun equal => ?_⟩
  have shortest := same.mp equal
  rw [stored] at shortest
  exact absurd shortest (by decide)

end CrossAsm.Target

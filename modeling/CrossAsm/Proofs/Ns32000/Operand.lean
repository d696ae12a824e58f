import CrossAsm.Proofs.Indexed
import CrossAsm.Proofs.Inverse
import CrossAsm.Proofs.Ns32000.Table

/-! Operands of the NS32000 as they are laid down. A general operand is a field, a displacement or
an immediate behind the opcode, and a byte for its index if it has one. -/

namespace CrossAsm.Ns32000

/-! ### Displacements -/

theorem ladder_full : config.ladder ≠ [] := nofun

theorem ladder_readable : Ladder.readable config.ladder = true := by decide

theorem ladder_zero : ∀ rung ∈ config.ladder, rung.holds 0 = true := by decide

/-- The displacement of an operand. -/
def displacement (op : Operand Mode Reg) (relative : Bool) : Extension :=
  ⟨.payload, .ladder op.value relative op.force op.undefined, op.column⟩

/-- Whatever its value, a displacement can be read from its bytes. -/
theorem exists_readLadder (base : Int) (op : Operand Mode Reg) (relative : Bool) :
    ∃ v, ∀ (d : Decoding) (more : List UInt8), d.config = config →
      d.rest = ((displacement op relative).laid config base).1 ++ more →
      d.readLadder = (v, d.past ((displacement op relative).laid config base).1.length) := by
  obtain ⟨rung, member, v, holds, encoded, -⟩ := Extension.exists_rung_of_laid ladder_full ladder_zero
    base .payload op.value relative op.force op.undefined op.column
  refine ⟨v, fun d more same ahead => ?_⟩
  rw [displacement, encoded] at ahead ⊢
  exact Decoding.readLadder_encode (same ▸ ladder_readable) (same ▸ member) holds ahead

/-! ### General operands -/

theorem mode_of_isGen {mode : Mode} (general : isGen mode = true) :
    mode = .gen ∨ mode = .genW ∨ mode = .genA := by
  simpa [isGen, or_assoc] using general

/-- The number of an operand's register, 0 without one. -/
def numberOf (op : Operand Mode Reg) : Nat := (op.reg.map Reg.number).getD 0

theorem number_lt (reg : Reg) : reg.number < 8 := by cases reg <;> decide

theorem numberOf_lt (op : Operand Mode Reg) : numberOf op < 8 := by
  unfold numberOf
  cases op.reg with
  | none => decide
  | some reg => exact number_lt reg

/-- The field of a general operand, its index aside. -/
def genOf (mode : Mode) (op : Operand Mode Reg) : Nat :=
  match op.mode with
  | .reg => numberOf op
  | .regRel => 8 + numberOf op
  | .space => genSpace + numberOf op
  | .imm => if mode = .genA then genSpace + 3 else genImmediate
  | .abs => genAbsolute
  | _ => genTos

/-- What is behind the opcode for a general operand, its index aside. -/
def tailOf (mode : Mode) (n : Nat) (op : Operand Mode Reg) : List Extension :=
  match op.mode with
  | .regRel | .space | .abs => [displacement op false]
  | .imm =>
    if mode = .genA then [displacement op true]
    else [⟨.payload, .number op.value n .big, op.column⟩]
  | _ => []

/-- A general operand with this field and this behind the opcode, and with its index. -/
def pieceOf (gen : Nat) (tail : List Extension) (op : Operand Mode Reg) : Piece :=
  match op.index, scaleCode? op.indexSize with
  | some index, some code =>
    { field := BitVec.ofNat 32 (genScaled + code)
      extensions :=
        tail ++ [⟨.index, .number (8 * gen + index.number : Nat) 1 config.endian, op.column⟩] }
  | _, _ => { field := BitVec.ofNat 32 gen, extensions := tail }

/-- An immediate that has its bytes behind the opcode. -/
def isImmediate (mode : Mode) (op : Operand Mode Reg) : Prop := op.mode = .imm ∧ mode ≠ .genA

/-- What the operand syntax gives without a fault. -/
structure Formed (op : Operand Mode Reg) : Prop where
  space : op.mode = .space → numberOf op < 4
  scaled : ∀ index, op.index = some index → ∃ code, scaleCode? op.indexSize = some code

theorem scaleOf_scaleCode {size : Size} {code : Nat} (known : scaleCode? size = some code) :
    code < 4 ∧ scaleOf (genScaled + code) = size := by
  cases size <;> simp only [scaleCode?, Option.some.injEq, reduceCtorEq] at known <;> subst known <;>
    decide

section General

variable {entry : Entry Mode} {slot : Slot Mode} {op : Operand Mode Reg}

theorem encodeBase_eq (accepted : accepts slot.mode op.mode = true) (general : isGen slot.mode = true)
    {n : Nat} (fits : isImmediate slot.mode op → op.index = none ∧
      Width.sized.bytes? entry.size = some n ∧
      (op.undefined || fitsSigned op.value (8 * n) || fitsUnsigned op.value (8 * n)) = true)
    (d : Draft) : encodeBase entry slot op d =
      (d.lay slot 0#32 (tailOf slot.mode n op), .ok (genOf slot.mode op)) := by
  have disp (relative : Bool) : encodeDisp op relative d = d.lay slot 0#32 [displacement op relative] :=
    d.extend_eq_lay slot .payload _ op.column
  cases mode : op.mode with
  | reg | tos =>
    simp only [encodeBase, genOf, tailOf, mode, ← d.eq_lay, numberOf]
  | regRel | space | abs =>
    simp only [encodeBase, genOf, tailOf, mode, disp, numberOf]
  | imm =>
    by_cases address : slot.mode = .genA
    · simp only [encodeBase, genOf, tailOf, mode, disp, if_pos address]
    · obtain ⟨plain, sized, small⟩ := fits ⟨mode, address⟩
      simp only [encodeBase, genOf, tailOf, mode, if_neg address, encodeImmediate, plain,
        Option.isSome_none, Bool.false_eq_true, if_false, sized, small, if_true,
        d.extend_eq_lay slot]
  | regList | pcrel | gen | genW | genA | quick | disp | dispAbs | list | listRev =>
    rw [mode] at accepted
    cases category : slot.mode <;> simp [category, isGen, accepts] at general accepted

theorem encodeOperand_general (general : isGen slot.mode = true) (d : Draft) :
    machine.encodeOperand entry slot op d = encodeGen entry slot op d := by
  obtain ⟨mode, pos, width⟩ := slot
  rcases mode_of_isGen general with rfl | rfl | rfl <;> rfl

theorem decodeOperand_general (general : isGen slot.mode = true) (index : Option UInt8)
    (d : Decoding) : machine.decodeOperand entry slot index d = decodeGen entry slot index d := by
  obtain ⟨mode, pos, width⟩ := slot
  rcases mode_of_isGen general with rfl | rfl | rfl <;> rfl

/-- A general operand that fits its place is laid down without a fault. -/
theorem lays_general (accepted : accepts slot.mode op.mode = true) (general : isGen slot.mode = true)
    (formed : Formed op) {n : Nat} (fits : isImmediate slot.mode op → op.index = none ∧
      Width.sized.bytes? entry.size = some n ∧
      (op.undefined || fitsSigned op.value (8 * n) || fitsUnsigned op.value (8 * n)) = true)
    (room : Nat) :
    machine.Lays entry slot op room (pieceOf (genOf slot.mode op) (tailOf slot.mode n op) op) none := by
  intro d config _
  have base := encodeBase_eq accepted general fits d
  rw [encodeOperand_general general]
  cases indexed : op.index with
  | none =>
    simp only [encodeGen, base, indexed, pieceOf, Draft.embed_eq_lay]
    simp [Draft.lay]
  | some index =>
    obtain ⟨code, known⟩ := formed.scaled index indexed
    simp only [encodeGen, base, indexed, pieceOf, known, Draft.embed_eq_lay, Draft.emit,
      Draft.lay_config, config]
    simp [Draft.lay, Draft.extend, machine]

theorem payload_pieceOf (gen : Nat) (tail : List Extension) (base : Int) :
    (pieceOf gen tail op).bytes config base .payload =
      Extension.stageOf config base .payload tail := by
  unfold Piece.bytes pieceOf
  split <;> simp [Extension.stageOf_singleton]

theorem behind_tailOf (op : Operand Mode Reg) (mode : Mode) (n : Nat) :
    ∀ e ∈ tailOf mode n op, e.stage = .payload := by
  intro e member
  unfold tailOf at member
  split at member <;> try split at member
  all_goals simp only [List.mem_singleton, List.not_mem_nil] at member
  all_goals
    subst member
    rfl

theorem genOf_lt (formed : Formed op) (mode : Mode) : genOf mode op < genScaled := by
  have number := numberOf_lt op
  unfold genOf
  split
  · exact Nat.lt_trans number (by decide)
  · exact Nat.lt_trans (Nat.add_lt_add_left number 8) (by decide)
  next space => exact Nat.add_lt_add_left (formed.space space) genSpace
  · split <;> decide
  · decide
  · decide

/-- No place refuses the field of an operand that it takes. -/
theorem refuses_genOf (accepted : accepts slot.mode op.mode = true)
    (general : isGen slot.mode = true) : refuses slot.mode (genOf slot.mode op) = false := by
  have number := numberOf_lt op
  rcases mode_of_isGen general with category | category | category
  · rw [category]
    rfl
  · rw [category] at accepted ⊢
    cases mode : op.mode <;> simp [mode, accepts] at accepted <;>
      simp only [refuses, genOf, mode, genImmediate, genSpace, genAbsolute, genTos, beq_eq_false_iff_ne] <;>
      omega
  · rw [category] at accepted ⊢
    cases mode : op.mode <;> simp [mode, accepts] at accepted <;>
      simp [refuses, genOf, mode, genImmediate, genSpace, genAbsolute, genTos] <;>
      omega

section Fields

variable {mode : Mode} {gen : Nat} {indexed : Bool} {d : Decoding}

theorem decodeBase_reg (small : gen < 8) : decodeBase entry mode gen indexed d =
    (some { mode := .reg, reg := Ns32000.general[gen]?, column := d.bytes.length }, d) := by
  rw [decodeBase, if_pos small]

theorem decodeBase_regRel (small : gen < 8) : decodeBase entry mode (8 + gen) indexed d =
    decodeDisp { mode := .regRel, reg := Ns32000.general[gen]?, column := d.bytes.length } d := by
  rw [decodeBase, if_neg (by omega), if_pos (by omega), Nat.add_sub_cancel_left]

theorem decodeBase_immediate {n : Nat} (sized : Width.sized.bytes? entry.size = some n) :
    decodeBase entry mode genImmediate false d =
      (some { mode := .imm, value := (d.readIn .big n).1, column := d.bytes.length },
        (d.readIn .big n).2) := by
  simp [decodeBase, genImmediate, sized]

theorem decodeBase_absolute : decodeBase entry mode genAbsolute indexed d =
    decodeDisp { mode := .abs, column := d.bytes.length } d := by
  simp [decodeBase, genImmediate, genAbsolute]

theorem decodeBase_tos : decodeBase entry mode genTos indexed d =
    (some { mode := .tos, column := d.bytes.length }, d) := by
  simp [decodeBase, genImmediate, genAbsolute, genTos]

theorem decodeBase_pcrel : decodeBase entry .genA (genSpace + 3) indexed d =
    (some { mode := .pcrel, value := d.readLadder.2.target d.readLadder.1, column := d.bytes.length },
      d.readLadder.2) := by
  simp [decodeBase, genImmediate, genAbsolute, genTos, genSpace]

theorem decodeBase_space (small : gen < 4) (other : ¬(gen = 3 ∧ mode = .genA)) :
    decodeBase entry mode (genSpace + gen) indexed d =
      decodeDisp { mode := .space, reg := spaces[gen]?, column := d.bytes.length } d := by
  obtain rfl | rfl | rfl | rfl : gen = 0 ∨ gen = 1 ∨ gen = 2 ∨ gen = 3 := by omega
  all_goals simp_all [decodeBase, genImmediate, genAbsolute, genTos, genSpace, genScaled]

end Fields

/-- What is laid down for a general operand is read to its end. -/
theorem exists_decodeBase (accepted : accepts slot.mode op.mode = true)
    (general : isGen slot.mode = true) (formed : Formed op) {n : Nat} (indexed : Bool)
    (plain : isImmediate slot.mode op → indexed = false ∧ Width.sized.bytes? entry.size = some n)
    {base : Int} {d : Decoding} {more : List UInt8} (same : d.config = config)
    (ahead : d.rest = Extension.stageOf config base .payload (tailOf slot.mode n op) ++ more) :
    ∃ back, decodeBase entry slot.mode (genOf slot.mode op) indexed d = (some back,
      d.past (Extension.stageOf config base .payload (tailOf slot.mode n op)).length) := by
  have number := numberOf_lt op
  -- All modes with a displacement read it in the same way, whatever it is measured from.
  have disp (relative : Bool) (tail : tailOf slot.mode n op = [displacement op relative]) :
      ∃ v, d.readLadder = (v,
        d.past (Extension.stageOf config base .payload (tailOf slot.mode n op)).length) := by
    obtain ⟨v, reads⟩ := exists_readLadder base op relative
    have alone : Extension.stageOf config base .payload (tailOf slot.mode n op) =
        ((displacement op relative).laid config base).1 := by
      rw [tail, Extension.stageOf_singleton]
      exact if_pos rfl
    rw [alone] at ahead ⊢
    exact ⟨v, reads d more same ahead⟩
  cases mode : op.mode with
  | reg =>
    have tail : tailOf slot.mode n op = [] := by simp only [tailOf, mode]
    simp only [genOf, mode, decodeBase_reg number, tail, Extension.stageOf_nil, List.length_nil,
      d.past_zero]
    exact ⟨_, rfl⟩
  | tos =>
    have tail : tailOf slot.mode n op = [] := by simp only [tailOf, mode]
    simp only [genOf, mode, tail, Extension.stageOf_nil, List.length_nil, d.past_zero]
    exact ⟨_, rfl⟩
  | regRel =>
    obtain ⟨v, reads⟩ := disp false (by simp only [tailOf, mode])
    simp only [genOf, mode, decodeBase_regRel number, decodeDisp, reads]
    exact ⟨_, rfl⟩
  | abs =>
    obtain ⟨v, reads⟩ := disp false (by simp only [tailOf, mode])
    refine ⟨{ mode := .abs, value := v, column := d.bytes.length }, ?_⟩
    simp only [genOf, mode, decodeBase_absolute, decodeDisp, reads]
  | space =>
    obtain ⟨v, reads⟩ := disp false (by simp only [tailOf, mode])
    simp only [genOf, mode]
    by_cases address : numberOf op = 3 ∧ slot.mode = .genA
    · rw [address.1, address.2, decodeBase_pcrel, ← address.2, reads]
      exact ⟨_, rfl⟩
    · rw [decodeBase_space (formed.space mode) address, decodeDisp, reads]
      exact ⟨_, rfl⟩
  | imm =>
    by_cases address : slot.mode = .genA
    · obtain ⟨v, reads⟩ := disp true (by simp only [tailOf, mode, if_pos address])
      simp only [genOf, mode, if_pos address]
      rw [address, decodeBase_pcrel, ← address, reads]
      exact ⟨_, rfl⟩
    · obtain ⟨rfl, sized⟩ := plain ⟨mode, address⟩
      have short := Machine.Width.bytes?_le sized
      have put : Extension.stageOf config base .payload (tailOf slot.mode n op) =
          Endian.big.put n op.value := by
        simp only [tailOf, mode, if_neg address, Extension.stageOf_singleton, if_true,
          Extension.laid_number]
      have length : (Endian.big.put n op.value).length = n := by simp [short]
      rw [put] at ahead ⊢
      simp only [genOf, mode, if_neg address]
      rw [decodeBase_immediate sized,
        d.readIn_eq .big (by rw [ahead, List.length_append]; omega) short, length]
      exact ⟨_, rfl⟩
  | regList | pcrel | gen | genW | genA | quick | disp | dispAbs | list | listRev =>
    rw [mode] at accepted
    cases category : slot.mode <;> simp [category, isGen, accepts] at general accepted

/-- An operand that is found for a field, with the index it is to have. -/
def indexedAs (op back : Operand Mode Reg) : Operand Mode Reg :=
  match op.index with
  | some index => { back with index := general[index.number]?, indexSize := op.indexSize }
  | none => back

section Reads

variable {gen : Nat} {tail : List Extension} (behind : ∀ e ∈ tail, e.stage = .payload)

include behind

theorem gapless_pieceOf : ∀ e ∈ (pieceOf gen tail op).extensions, e.stage ≠ .gap := by
  intro e member
  unfold pieceOf at member
  split at member
  · rcases List.mem_append.mp member with own | last
    · simp [behind e own]
    · simp [List.mem_singleton.mp last]
  · simp [behind e member]

/-- The index byte has the field in its upper bits, and the field in the opcode announces it. -/
theorem index_pieceOf (formed : Formed op) (small : gen < genScaled) (base : Int) :
    (op.index = none ∧ (pieceOf gen tail op).bytes config base .index = [] ∧
        (pieceOf gen tail op).field.toNat % twoPow 5 = gen) ∨
      ∃ index b, op.index = some index ∧ (pieceOf gen tail op).bytes config base .index = [b] ∧
        b.toNat / 8 = gen ∧ b.toNat % 8 = index.number ∧
        genScaled ≤ (pieceOf gen tail op).field.toNat % twoPow 5 ∧
        scaleOf ((pieceOf gen tail op).field.toNat % twoPow 5) = op.indexSize := by
  have other : Extension.stageOf config base .index tail = [] := by
    rw [Extension.stageOf, List.flatMap_eq_nil_iff]
    intro e member
    simp [behind e member]
  have below : gen < 28 := small
  cases indexed : op.index with
  | none =>
    refine .inl ⟨rfl, by simp [Piece.bytes, pieceOf, indexed, other], ?_⟩
    simp only [pieceOf, indexed]
    exact Machine.toNat_ofNat_mod (by decide) (Nat.lt_trans below (by decide))
  | some index =>
    obtain ⟨code, known⟩ := formed.scaled index indexed
    obtain ⟨four, scale⟩ := scaleOf_scaleCode known
    have number := number_lt index
    have field : (pieceOf gen tail op).field.toNat % twoPow 5 = genScaled + code := by
      simp only [pieceOf, indexed, known]
      exact Machine.toNat_ofNat_mod (by decide) (show 28 + code < 32 by omega)
    have byte : (UInt8.ofNat (8 * gen + index.number)).toNat = 8 * gen + index.number := by
      simp only [UInt8.toNat_ofNat']
      omega
    refine .inr ⟨index, UInt8.ofNat (8 * gen + index.number), rfl, ?_, by omega, by omega, ?_, ?_⟩
    · have single : config.endian.put 1 (8 * gen + index.number : Nat) =
          [UInt8.ofNat (8 * gen + index.number)] := by
        have back := config.endian.put_byte (UInt8.ofNat (8 * gen + index.number))
        rwa [byte] at back
      simp only [Piece.bytes, pieceOf, indexed, known, Extension.stageOf_append, other,
        Extension.stageOf_singleton, if_true, Extension.laid_number, List.nil_append, single]
    · rw [field]
      exact Nat.le_add_right _ _
    · rw [field, scale]

theorem decodeOperand_pieceOf (general : isGen slot.mode = true) (wide : slot.width = 5)
    (small : gen < genScaled) (allowed : refuses slot.mode gen = false) (formed : Formed op)
    (base : Int) {d next : Decoding} {back : Operand Mode Reg}
    (field : slot.read d.opcode = (pieceOf gen tail op).field.toNat % twoPow slot.width)
    (found : decodeBase entry slot.mode gen op.index.isSome d = (some back, next)) :
    machine.decodeOperand entry slot ((pieceOf gen tail op).bytes config base .index).head? d =
      (some (indexedAs op back), next) := by
  rw [wide] at field
  rw [decodeOperand_general general]
  rcases index_pieceOf behind formed small base with
    ⟨plain, bytes, whole⟩ | ⟨index, b, indexed, bytes, upper, lower, -, scale⟩
  · simp only [bytes, List.head?_nil, decodeGen, Option.map_none, Option.getD_none, field, whole,
      allowed, Bool.false_eq_true, if_false, indexedAs, plain]
    simp only [plain, Option.isSome_none] at found
    rw [Option.isSome_none, found]
  · rw [indexed, Option.isSome_some] at found
    simp only [bytes, List.head?_cons, decodeGen, Option.map_some, Option.getD_some, upper, allowed,
      Bool.false_eq_true, if_false, Option.isSome_some, found, lower, field, scale, indexedAs, indexed]

/-- A general operand is read back from its piece, once it is found for its field. -/
theorem returns_pieceOf {Q : Slot Mode → Operand Mode Reg → Operand Mode Reg → Prop} {room : Nat}
    (lays : machine.Lays entry slot op room (pieceOf gen tail op) none)
    (general : isGen slot.mode = true) (wide : slot.width = 5) (small : gen < genScaled)
    (allowed : refuses slot.mode gen = false) (formed : Formed op) {base : Int}
    (finds : ∀ (d : Decoding) (more : List UInt8), d.config = config →
      d.rest = Extension.stageOf config base .payload tail ++ more →
      ∃ back, decodeBase entry slot.mode gen op.index.isSome d =
          (some back, d.past (Extension.stageOf config base .payload tail).length) ∧
        (d.base = base → Q slot op (indexedAs op back))) :
    machine.Returns base Q entry slot op room (pieceOf gen tail op) none where
  lays
  gapless := gapless_pieceOf behind
  index := by
    rw [wide]
    rcases index_pieceOf behind formed small base with
      ⟨-, bytes, whole⟩ | ⟨index, b, -, bytes, -, -, scaled, -⟩
    · exact ⟨none, bytes, by simpa [machine, hasIndexByte, general, whole] using small⟩
    · exact ⟨some b, bytes, by simpa [machine, hasIndexByte, general] using scaled⟩
  reads d more same field ahead := by
    rw [show machine.config = config from rfl, payload_pieceOf] at ahead ⊢
    obtain ⟨back, found, recovered⟩ := finds d more same ahead
    exact ⟨_, decodeOperand_pieceOf behind general wide small allowed formed base field found,
      recovered⟩

end Reads

end General

end CrossAsm.Ns32000

import CrossAsm.Proofs.Faithful
import CrossAsm.Proofs.Ns32000.Restore

/-! Assembling for the NS32000, operand by operand. Every part of an operand comes back from where it
stands, with one exception: a scaled index is laid down for a general operand only. Behind the
operand of a short constant, a branch or a plain displacement it can be written, but is left out of
the instruction. -/

namespace CrossAsm.Ns32000

/-! ### Operands as they are written -/

/-- What is known of an operand that was read without a fault. -/
structure Spoken (op : Operand Mode Reg) : Prop where
  known : op.undefined = false
  reg : match op.mode with
    | .reg | .regRel => ∃ reg, op.reg = some reg ∧ reg.isGeneral = true
    | .space => ∃ reg, op.reg = some reg ∧ reg.isGeneral = false
    | _ => op.reg = none
  still : op.mode = .reg ∨ op.mode = .tos ∨ op.mode = .regList → op.value = 0
  list : op.mode ≠ .regList → op.list = 0
  index : match op.index with
    | some index => index.isGeneral = true
    | none => op.indexSize = .unsized

theorem parseRegisters_of_clean {op : Operand Mode Reg} {fuel : Nat} {c : Cursor}
    (clean : (parseRegisters op fuel c).1.fault = none) :
    ∃ list, (parseRegisters op fuel c).1 = { op with list } := by
  induction fuel generalizing op c with
  | zero => exact ⟨op.list, rfl⟩
  | succ fuel ih =>
    simp only [parseRegisters] at clean ⊢
    split at clean
    · simp [Operand.failed] at clean
    · split at clean
      · simp [Operand.failed] at clean
      next reg after found fresh =>
        rw [if_neg fresh]
        split at clean
        · exact ⟨_, rfl⟩
        · obtain ⟨list, read⟩ := ih clean
          exact ⟨list, read⟩
        · simp [Operand.failed] at clean

theorem spoken_parseList {column : Nat} {c : Cursor} (clean : (parseList column c).1.fault = none) :
    Spoken (parseList column c).1 := by
  simp only [parseList] at clean ⊢
  split at clean
  · exact ⟨rfl, rfl, fun _ => rfl, fun other => absurd rfl other, rfl⟩
  · obtain ⟨list, read⟩ := parseRegisters_of_clean clean
    rw [read]
    exact ⟨rfl, rfl, fun _ => rfl, fun other => absurd rfl other, rfl⟩

theorem spoken_parseBase {force : Option Force} {column : Nat} {v : Value} {c : Cursor}
    (clean : (parseBase { mode := .imm, force, column } v c).1.fault = none) :
    Spoken (parseBase { mode := .imm, force, column } v c).1 := by
  simp only [parseBase] at clean ⊢
  split at clean
  · simp [Operand.failed] at clean
  next reg after found =>
    split at clean
    · simp [Operand.failed] at clean
    · rw [Operand.withValue_of_clean clean]
      cases general : reg.isGeneral with
      | true => exact ⟨rfl, ⟨reg, rfl, general⟩, by simp, fun _ => rfl, rfl⟩
      | false => exact ⟨rfl, ⟨reg, rfl, general⟩, by simp, fun _ => rfl, rfl⟩

theorem spoken_parseAddress {scope : Scope} {column : Nat} {c : Cursor}
    (clean : (parseAddress scope column c).1.fault = none) :
    Spoken (parseAddress scope column c).1 := by
  simp only [parseAddress] at clean ⊢
  split at clean
  · simp [Operand.failed] at clean
  · cases absolute : c.eat? '@' with
    | some after =>
      simp only [absolute, if_true] at clean ⊢
      rw [Operand.withValue_of_clean clean]
      exact ⟨rfl, rfl, by simp, fun _ => rfl, rfl⟩
    | none =>
      simp only [absolute, Bool.false_eq_true, if_false] at clean ⊢
      split at clean
      · exact spoken_parseBase clean
      · rw [Operand.withValue_of_clean clean]
        exact ⟨rfl, rfl, by simp, fun _ => rfl, rfl⟩

theorem spoken_parsePlain {scope : Scope} {c : Cursor} (clean : (parsePlain scope c).1.fault = none) :
    Spoken (parsePlain scope c).1 := by
  simp only [parsePlain] at clean ⊢
  split at clean
  · exact ⟨rfl, rfl, fun _ => rfl, fun _ => rfl, rfl⟩
  · split at clean
    next reg after found =>
      cases general : reg.isGeneral with
      | true => exact ⟨rfl, ⟨reg, rfl, general⟩, fun _ => rfl, fun _ => rfl, rfl⟩
      | false => simp [general, Operand.failed] at clean
    · exact spoken_parseAddress clean

theorem isGeneral_of_generalRegister {c after : Cursor} {reg : Reg}
    (found : generalRegister c = (some reg, after)) : reg.isGeneral = true := by
  unfold generalRegister at found
  split at found
  next other _ _ =>
    by_cases general : other.isGeneral
    · obtain rfl : other = reg := by simpa [general] using congrArg Prod.fst found
      exact general
    · simp [general] at found
  · simp at found

theorem parseScaled_of_clean {op : Operand Mode Reg} {c : Cursor}
    (clean : (parseScaled op c).1.fault = none) :
    ∃ index indexSize, (parseScaled op c).1 = { op with index := some index, indexSize } ∧
      index.isGeneral = true := by
  simp only [parseScaled] at clean ⊢
  split at clean
  · simp [Operand.failed] at clean
  next reg after found =>
    have general := isGeneral_of_generalRegister found
    split at clean
    · simp [Operand.failed] at clean
    · split at clean
      · simp [Operand.failed] at clean
      · split at clean
        · simp [Operand.failed] at clean
        next size known =>
          split at clean
          · exact ⟨reg, size, rfl, general⟩
          · simp [Operand.failed] at clean

theorem spoken_parseOperand {scope : Scope} {c : Cursor}
    (clean : (parseOperand scope c).1.fault = none) : Spoken (parseOperand scope c).1 := by
  simp only [parseOperand] at clean ⊢
  split at clean
  · exact spoken_parseList clean
  · split at clean
    next hard =>
      rw [if_pos hard]
      exact spoken_parsePlain clean
    next soft =>
      rw [if_neg soft]
      split at clean
      · -- The index is added to an operand that was read without a fault itself.
        obtain ⟨index, size, read, general⟩ := parseScaled_of_clean clean
        rw [read] at clean ⊢
        exact { spoken_parsePlain clean with index := general }
      · exact spoken_parsePlain clean

/-! ### What comes back from a slot -/

/-- Does the operand come back as a target? A branch target does, and in a place for addresses an
address that is written by itself or as a distance from the program counter. -/
def isTarget (category : Mode) (op : Operand Mode Reg) : Bool :=
  category == .disp ||
    category == .genA && (op.mode == .imm || op.mode == .space && op.reg == some .pc)

/-- The form of an operand that is decoded in this mode. -/
def form : Mode → Mode
  | .quick | .dispAbs => .imm
  | .disp => .pcrel
  | mode => mode

/-- The bytes of an immediate. -/
def immediateBytes (entry : Entry Mode) : Nat := (Width.sized.bytes? entry.size).getD 0

/-- The number that comes back: a target in the address space, an immediate up to the bytes it has,
and every other number as it is. -/
def kept (base : Int) (entry : Entry Mode) (category : Mode) (op : Operand Mode Reg) : Int :=
  if isTarget category op then (if op.mode = .space then base + op.value else op.value) % 2 ^ 24
  else if category = .gen ∧ op.mode = .imm then op.value % 2 ^ (8 * immediateBytes entry)
  else op.value

/-- What comes back for an operand of an instruction at `base`. All of it is there again, but an index
only in a general place. -/
structure Repeats (base : Int) (entry : Entry Mode) (slot : Slot Mode) (op back : Operand Mode Reg) :
    Prop where
  mode : form back.mode = if isTarget slot.mode op then .pcrel else op.mode
  reg : back.reg = if isTarget slot.mode op then none else op.reg
  value : back.value = kept base entry slot.mode op
  list : back.list = op.list
  index : back.index = if isGen slot.mode then op.index else none
  indexSize : back.indexSize = if isGen slot.mode then op.indexSize else .unsized

section Slots

variable {entry : Entry Mode} {slot : Slot Mode} {op : Operand Mode Reg} {base : Int}

/-- A displacement without a fault is read back as it was measured. -/
theorem readLadder_of_clean {relative : Bool} (known : op.undefined = false)
    (clean : ((displacement op relative).laid config base).2 = none) {d : Decoding}
    {more : List UInt8} (same : d.config = config)
    (ahead : d.rest = ((displacement op relative).laid config base).1 ++ more) :
    d.readLadder = (if relative then op.value - base else op.value,
      d.past ((displacement op relative).laid config base).1.length) := by
  obtain ⟨rung, member, v, holds, encoded, value⟩ := Extension.exists_rung_of_laid ladder_full
    ladder_zero base .payload op.value relative op.force op.undefined op.column
  have measured := value clean
  rw [known, if_neg Bool.false_ne_true] at measured
  rw [displacement, encoded] at ahead ⊢
  rw [← measured]
  exact Decoding.readLadder_encode (same ▸ ladder_readable) (same ▸ member) holds ahead

/-- What a distance leads to, from anywhere in the instruction. -/
theorem target_of_base {d : Decoding} (same : d.config = config) (measured : d.base = base) (k : Nat)
    (v : Int) : (d.past k).target v = (base + v) % 2 ^ 24 := by
  have still : (d.past k).base = d.base := by simp [Decoding.base, same, config]
  rw [Decoding.target, still, measured, Decoding.past_config, same]
  rfl

/-- A constant or a target that stands by itself. -/
theorem repeats_constant (category : slot.mode = .quick ∨ slot.mode = .disp ∨ slot.mode = .dispAbs)
    (accepted : accepts slot.mode op.mode = true) (spoken : Spoken op) {v : Int}
    (value : v = if slot.mode = .disp then op.value % 2 ^ 24 else op.value) (column : Nat) :
    Repeats base entry slot op { mode := slot.mode, value := v, column } := by
  have immediate : op.mode = .imm := by
    rcases category with mode | mode | mode <;> simpa [accepts, mode] using accepted
  have bare : op.reg = none := by
    have reg := spoken.reg
    rwa [immediate] at reg
  have list := spoken.list (by simp [immediate])
  rcases category with mode | mode | mode <;>
    exact
      { mode := by simp [mode, form, isTarget, immediate]
        reg := by simp [bare]
        value := by simp [value, mode, kept, isTarget, immediate]
        list := list.symm
        index := by simp [mode, isGen]
        indexSize := by simp [mode, isGen] }

section Laid

variable {room : Nat} {piece : Piece} (lays : machine.Lays entry slot op room piece none)
  (inside : slot.pos + slot.width ≤ 32) (accepted : accepts slot.mode op.mode = true)
  (spoken : Spoken op)

include lays inside accepted spoken

theorem returns_quick (quick : slot.mode = .quick) (narrow : slot.width = 4) :
    machine.Returns base (Repeats base entry) entry slot op room piece none := by
  have shape : machine.shape slot.mode = .embedded true := by rw [quick]; rfl
  have run := lays (.blank config room) rfl rfl
  simp only [Machine.encodeOperand, shape, if_true] at run
  obtain ⟨fits, -⟩ := Machine.fits_of_encodeEmbedded spoken.known run
  have own : machine.Lays entry slot op room { field := BitVec.ofInt 32 op.value } none := by
    intro d _ _
    simp only [Machine.encodeOperand, shape, if_true, Machine.encodeEmbedded, fits, Bool.or_true,
      ← d.embed_eq_lay]
  refine (returns_behind own (by simp) (by rw [quick]; rfl) base ?_).of_lays lays inside
  intro d more _ field _
  -- A constant that fits the field is told by it, with its sign.
  have word := Machine.toNat_ofInt_mod op.value (show slot.width ≤ 32 by omega)
  have back : signExtend (slot.read d.opcode) slot.width = op.value := by
    apply signExtend_of_fitsSigned (by omega) fits
    rw [field, word, Int.emod_emod_of_dvd _ (dvd_refl _)]
  have decoded : machine.decodeOperand entry slot none d = _ :=
    Machine.decodeOperand_embedded none shape
  simp only [if_true, back] at decoded
  refine ⟨_, by simpa [Piece.bytes] using decoded, fun _ => ?_⟩
  exact repeats_constant (.inl quick) accepted spoken (by simp [quick]) _

theorem returns_ladder {relative : Bool} (category : slot.mode = .disp ∧ relative = true ∨
      slot.mode = .dispAbs ∧ relative = false)
    (clean : ∀ e ∈ piece.extensions, (e.laid config base).2 = none) :
    machine.Returns base (Repeats base entry) entry slot op room piece none := by
  have shape : machine.shape slot.mode = .ladder relative := by
    rcases category with ⟨mode, rfl⟩ | ⟨mode, rfl⟩ <;> rw [mode] <;> rfl
  have own : machine.Lays entry slot op room { extensions := [displacement op relative] } none := by
    intro d _ _
    simp only [Machine.encodeOperand, shape, d.extend_eq_lay slot]
    rfl
  rw [(lays.unique own inside).1] at clean
  refine (returns_behind own ?_ ?_ base ?_).of_lays lays inside
  · intro e member
    rw [List.mem_singleton.mp member]
    rfl
  · rcases category with ⟨mode, rfl⟩ | ⟨mode, rfl⟩ <;> rw [mode] <;> rfl
  · intro d more same _ ahead
    have alone : Piece.bytes { extensions := [displacement op relative] } config base .payload =
        ((displacement op relative).laid config base).1 :=
      (Extension.stageOf_singleton ..).trans (if_pos rfl)
    rw [alone] at ahead ⊢
    have read := readLadder_of_clean spoken.known (clean _ (by simp)) same ahead
    refine ⟨_, by simp only [Machine.decodeOperand, shape, read]; rfl, fun measured => ?_⟩
    apply repeats_constant (.inr (category.imp And.left And.left)) accepted spoken
    rcases category with ⟨mode, rfl⟩ | ⟨mode, rfl⟩
    · simp [mode, target_of_base same measured]
    · simp [mode]

theorem returns_list (list : slot.mode = .list ∨ slot.mode = .listRev) :
    machine.Returns base (Repeats base entry) entry slot op room piece none := by
  have mode : op.mode = .regList := by
    rcases list with mode | mode <;> simpa [accepts, mode] using accepted
  have bare : op.reg = none := by
    have reg := spoken.reg
    rwa [mode] at reg
  -- The two bit orders differ only in a map that undoes itself.
  obtain ⟨order, twice, encoded, decoded⟩ : ∃ order : BitVec 8 → BitVec 8,
      (∀ x, order (order x) = x) ∧
      (∀ d : Draft, machine.encodeOperand entry slot op d =
        (d.emit .payload (order op.list).toNat 1 op.column, none)) ∧
      ∀ d : Decoding, machine.decodeOperand entry slot none d =
        (some { mode := .regList, list := order (BitVec.ofNat 8 (d.read 1).1),
                column := d.bytes.length }, (d.read 1).2) := by
    rcases list with mode | mode
    · refine ⟨id, fun _ => rfl, fun d => ?_, fun d => ?_⟩
      · simp [Machine.encodeOperand, mode, machine, shape, encodeCustom]
      · simp [Machine.decodeOperand, mode, machine, shape, decodeCustom]
    · refine ⟨BitVec.reverse, fun _ => BitVec.reverse_reverse_eq, fun d => ?_, fun d => ?_⟩
      · simp [Machine.encodeOperand, mode, machine, shape, encodeCustom]
      · simp [Machine.decodeOperand, mode, machine, shape, decodeCustom]
  have own : machine.Lays entry slot op room { extensions :=
      [⟨.payload, .number (order op.list).toNat 1 config.endian, op.column⟩] } none := by
    intro d same _
    rw [encoded, Draft.emit, same, d.extend_eq_lay slot]
    rfl
  refine (returns_behind own ?_ ?_ base ?_).of_lays lays inside
  · intro e member
    rw [List.mem_singleton.mp member]
  · rcases list with mode | mode <;> rw [mode] <;> rfl
  · intro d more same _ ahead
    have alone : Piece.bytes { extensions :=
        [⟨.payload, .number (order op.list).toNat 1 config.endian, op.column⟩] } config base .payload =
        config.endian.put 1 (order op.list).toNat := by
      simp [Piece.bytes, Extension.stageOf_singleton, Extension.laid_number]
    rw [alone] at ahead ⊢
    have length : (config.endian.put 1 (order op.list).toNat).length = 1 := by simp
    have read : d.read 1 = ((order op.list).toNat, d.past 1) := by
      rw [Decoding.read, d.readIn_eq d.config.endian (by simp [ahead]) (by decide), ahead,
        List.take_left' length, same,
        config.endian.number_put_of_lt (by decide) (order op.list).isLt]
    rw [decoded, read, length, BitVec.ofNat_toNat, BitVec.setWidth_eq, twice]
    refine ⟨_, rfl, fun _ => ?_⟩
    have other : slot.mode ≠ .disp ∧ slot.mode ≠ .genA ∧ isGen slot.mode = false := by
      rcases list with mode | mode <;> simp [mode, isGen]
    have plain : isTarget slot.mode op = false := by simp [isTarget, other]
    exact
      { mode := by simp [plain, form, mode]
        reg := by simp [plain, bare]
        value := by simp [kept, plain, mode, spoken.still]
        list := rfl
        index := by simp [other]
        indexSize := by simp [other] }

end Laid

/-! ### General operands -/

theorem mode_of_general (accepted : accepts slot.mode op.mode = true)
    (general : isGen slot.mode = true) :
    op.mode = .reg ∨ op.mode = .regRel ∨ op.mode = .space ∨ op.mode = .imm ∨ op.mode = .abs ∨
      op.mode = .tos := by
  rcases mode_of_isGen general with mode | mode | mode <;> rw [mode] at accepted <;>
    cases form : op.mode <;> simp_all [accepts]

/-- An operand that is found for a field comes back with its index. -/
theorem repeats_indexedAs (accepted : accepts slot.mode op.mode = true)
    (general : isGen slot.mode = true) (spoken : Spoken op) {mode : Mode} {reg : Option Reg} {v : Int}
    (kind : form mode = if isTarget slot.mode op then .pcrel else op.mode)
    (named : reg = if isTarget slot.mode op then none else op.reg)
    (value : v = kept base entry slot.mode op) (column : Nat) :
    Repeats base entry slot op (indexedAs op { mode, reg, value := v, column }) := by
  have list : op.list = 0 := by
    apply spoken.list
    rcases mode_of_general accepted general with form | form | form | form | form | form <;>
      simp [form]
  have index := spoken.index
  cases indexed : op.index with
  | none =>
    simp only [indexed] at index
    simp only [indexedAs, indexed]
    exact ⟨kind, named, value, list.symm, by simp [indexed], by simp [general, index]⟩
  | some register =>
    simp only [indexed] at index
    simp only [indexedAs, indexed, general_number register index]
    exact ⟨kind, named, value, list.symm, by simp [general, indexed], by simp [general]⟩

theorem space_number : ∀ reg : Reg, reg.isGeneral = false → reg.number < 4 ∧
    spaces[reg.number]? = some reg ∧ (reg.number = 3 → reg = .pc) := by
  intro reg
  cases reg <;> decide

theorem isTarget_general (general : isGen slot.mode = true) : isTarget slot.mode op = true ↔
    slot.mode = .genA ∧ (op.mode = .imm ∨ op.mode = .space ∧ op.reg = some .pc) := by
  have other : slot.mode ≠ .disp := by
    rcases mode_of_isGen general with mode | mode | mode <;> simp [mode]
  simp [isTarget, other]

/-- The bytes that stand for a general operand behind the opcode, its index aside. -/
def tailBytes (base : Int) (entry : Entry Mode) (mode : Mode) (op : Operand Mode Reg) : List UInt8 :=
  Extension.stageOf config base .payload (tailOf mode (immediateBytes entry) op)

/-- From these bytes the operand is found for its field. -/
def Finds (base : Int) (entry : Entry Mode) (slot : Slot Mode) (op : Operand Mode Reg)
    (d : Decoding) : Prop :=
  ∃ back, decodeBase entry slot.mode (genOf slot.mode op) op.index.isSome d =
      (some back, d.past (tailBytes base entry slot.mode op).length) ∧
    (d.base = base → Repeats base entry slot op (indexedAs op back))

section Finds

variable (accepted : accepts slot.mode op.mode = true) (general : isGen slot.mode = true)
  (spoken : Spoken op) {d : Decoding}

include accepted general spoken

/-- A register or the top of the stack has nothing behind the opcode. -/
theorem finds_bare (bare : op.mode = .reg ∨ op.mode = .tos) : Finds base entry slot op d := by
  have plain : ¬isTarget slot.mode op = true := by
    rw [isTarget_general general]
    rcases bare with mode | mode <;> simp [mode]
  have none : tailBytes base entry slot.mode op = [] := by
    rcases bare with mode | mode <;> simp [tailBytes, tailOf, mode]
  have value : 0 = kept base entry slot.mode op := by
    rcases bare with mode | mode <;> simp [kept, plain, mode, spoken.still]
  have reg := spoken.reg
  rw [Finds, none, List.length_nil, d.past_zero]
  rcases bare with mode | mode
  · simp only [mode] at reg
    obtain ⟨register, named, own⟩ := reg
    have number : numberOf op = register.number := by simp [numberOf, named]
    simp only [genOf, mode, number, decodeBase_reg (number_lt register), general_number register own]
    exact ⟨_, rfl, fun _ => repeats_indexedAs accepted general spoken (by simp [plain, form, mode])
      (by simp [plain, named]) value _⟩
  · simp only [mode] at reg
    simp only [genOf, mode, decodeBase_tos]
    exact ⟨_, rfl, fun _ => repeats_indexedAs accepted general spoken (by simp [plain, form, mode])
      (by simp [plain, reg]) value _⟩

variable {more : List UInt8} (ahead : d.rest = tailBytes base entry slot.mode op ++ more)

include ahead

theorem finds_immediate (immediate : isImmediate slot.mode op) (plain : op.index = none)
    (sized : Width.sized.bytes? entry.size = some (immediateBytes entry)) :
    Finds base entry slot op d := by
  obtain ⟨mode, address⟩ := immediate
  have reg := spoken.reg
  simp only [mode] at reg
  have direct : ¬isTarget slot.mode op = true := by simp [isTarget_general general, address]
  -- Of the general places, only one that is read takes an immediate.
  have category : slot.mode = .gen := by
    rcases mode_of_isGen general with category | category | category
    · exact category
    · simp [accepts, mode, category] at accepted
    · exact absurd category address
  have short := Machine.Width.bytes?_le sized
  have put : tailBytes base entry slot.mode op = Endian.big.put (immediateBytes entry) op.value := by
    simp only [tailBytes, tailOf, mode, if_neg address, Extension.stageOf_singleton, if_true,
      Extension.laid_number]
  have length : (Endian.big.put (immediateBytes entry) op.value).length = immediateBytes entry := by
    simp [short]
  rw [put] at ahead
  have read := d.readIn_eq .big (by rw [ahead, List.length_append]; omega) short
  rw [ahead, List.take_left' length] at read
  rw [Finds, put, length]
  simp only [genOf, mode, if_neg address, plain, Option.isSome_none, decodeBase_immediate sized, read]
  refine ⟨_, rfl, fun _ => repeats_indexedAs accepted general spoken (by simp [direct, form, mode])
    (by simp [direct, reg]) ?_ _⟩
  rw [Endian.number_put _ _ short, kept, if_neg direct, if_pos ⟨category, mode⟩, twoPow_eq]
  norm_cast

variable (same : d.config = config)
  (clean : ∀ e ∈ tailOf slot.mode (immediateBytes entry) op, (e.laid config base).2 = none)

include same clean

omit accepted general in
theorem readLadder_tail {relative : Bool}
    (tail : tailOf slot.mode (immediateBytes entry) op = [displacement op relative]) :
    d.readLadder = (if relative then op.value - base else op.value,
      d.past (tailBytes base entry slot.mode op).length) := by
  have alone : tailBytes base entry slot.mode op = ((displacement op relative).laid config base).1 := by
    rw [tailBytes, tail, Extension.stageOf_singleton]
    exact if_pos rfl
  rw [alone] at ahead ⊢
  exact readLadder_of_clean spoken.known (clean _ (by simp [tail])) same ahead

/-- A target is measured from the instruction, however it is written. -/
theorem finds_target (target : isTarget slot.mode op = true) : Finds base entry slot op d := by
  obtain ⟨address, written⟩ := (isTarget_general general).mp target
  -- Both ways to write it have the field of the program counter, and differ in what is measured.
  have gen : genOf slot.mode op = genSpace + 3 := by
    rcases written with mode | ⟨mode, pc⟩
    · simp [genOf, mode, address]
    · simp [genOf, mode, numberOf, pc, Reg.number]
  obtain ⟨relative, tail, value⟩ : ∃ relative,
      tailOf slot.mode (immediateBytes entry) op = [displacement op relative] ∧
        (base + if relative then op.value - base else op.value) % 2 ^ 24 =
          kept base entry slot.mode op := by
    rcases written with mode | ⟨mode, pc⟩
    · refine ⟨true, by simp [tailOf, mode, address], ?_⟩
      simp [kept, target, mode]
    · refine ⟨false, by simp [tailOf, mode], ?_⟩
      simp [kept, target, mode]
  have read := readLadder_tail spoken ahead same clean tail
  rw [Finds, gen, address, decodeBase_pcrel, ← address, read]
  refine ⟨_, rfl, fun measured => repeats_indexedAs accepted general spoken (by simp [target, form])
    (by simp [target]) ?_ _⟩
  rw [target_of_base same measured]
  exact value

/-- A displacement from a register, or an absolute address. -/
theorem finds_displaced (plain : ¬isTarget slot.mode op = true)
    (displaced : op.mode = .regRel ∨ op.mode = .space ∨ op.mode = .abs) :
    Finds base entry slot op d := by
  have tail : tailOf slot.mode (immediateBytes entry) op = [displacement op false] := by
    rcases displaced with mode | mode | mode <;> simp [tailOf, mode]
  have value : op.value = kept base entry slot.mode op := by
    rcases displaced with mode | mode | mode <;> simp [kept, plain, mode]
  have read := readLadder_tail spoken ahead same clean tail
  have reg := spoken.reg
  rw [Finds]
  rcases displaced with mode | mode | mode
  · simp only [mode] at reg
    obtain ⟨register, named, own⟩ := reg
    have number : numberOf op = register.number := by simp [numberOf, named]
    simp only [genOf, mode, number, decodeBase_regRel (number_lt register),
      general_number register own, decodeDisp, read]
    exact ⟨_, rfl, fun _ => repeats_indexedAs accepted general spoken (by simp [plain, form, mode])
      (by simp [plain, named]) value _⟩
  · simp only [mode] at reg
    obtain ⟨register, named, own⟩ := reg
    have number : numberOf op = register.number := by simp [numberOf, named]
    obtain ⟨small, found, counter⟩ := space_number register own
    -- The program counter leads to a target where addresses are taken.
    have other : ¬(register.number = 3 ∧ slot.mode = .genA) := by
      rintro ⟨three, address⟩
      exact plain ((isTarget_general general).mpr ⟨address, .inr ⟨mode, by rw [named, counter three]⟩⟩)
    simp only [genOf, mode, number, decodeBase_space small other, found, decodeDisp, read]
    exact ⟨_, rfl, fun _ => repeats_indexedAs accepted general spoken (by simp [plain, form, mode])
      (by simp [plain, named]) value _⟩
  · simp only [mode] at reg
    simp only [genOf, mode, decodeBase_absolute, decodeDisp, read]
    exact ⟨_, rfl, fun _ => repeats_indexedAs accepted general spoken (by simp [plain, form, mode])
      (by simp [plain, reg]) value _⟩

end Finds

/-- An immediate without a fault has no index and fits its bytes. -/
theorem fits_of_encodeGen (immediate : isImmediate slot.mode op)
    {d next : Draft} (run : encodeGen entry slot op d = (next, none)) :
    op.index = none ∧ Width.sized.bytes? entry.size = some (immediateBytes entry) ∧
      (op.undefined || fitsSigned op.value (8 * immediateBytes entry) ||
        fitsUnsigned op.value (8 * immediateBytes entry)) = true := by
  obtain ⟨mode, address⟩ := immediate
  simp only [encodeGen, encodeBase, mode, if_neg address, encodeImmediate] at run
  cases indexed : op.index with
  | some index => simp [indexed] at run
  | none =>
    cases sized : Width.sized.bytes? entry.size with
    | none => simp [indexed, sized] at run
    | some n =>
      have bytes : immediateBytes entry = n := by simp [immediateBytes, sized]
      refine ⟨rfl, by rw [bytes], ?_⟩
      by_contra misfit
      rw [bytes] at misfit
      simp [indexed, sized, misfit] at run

theorem finds_general (accepted : accepts slot.mode op.mode = true)
    (general : isGen slot.mode = true) (spoken : Spoken op)
    (fits : isImmediate slot.mode op → op.index = none ∧
      Width.sized.bytes? entry.size = some (immediateBytes entry))
    (clean : ∀ e ∈ tailOf slot.mode (immediateBytes entry) op, (e.laid config base).2 = none)
    {d : Decoding} {more : List UInt8} (same : d.config = config)
    (ahead : d.rest = tailBytes base entry slot.mode op ++ more) : Finds base entry slot op d := by
  by_cases target : isTarget slot.mode op = true
  · exact finds_target accepted general spoken ahead same clean target
  have displaced := finds_displaced accepted general spoken ahead same clean target
  rcases mode_of_general accepted general with mode | mode | mode | mode | mode | mode
  · exact finds_bare accepted general spoken (.inl mode)
  · exact displaced (.inl mode)
  · exact displaced (.inr (.inl mode))
  · have immediate : isImmediate slot.mode op :=
      ⟨mode, fun address => target ((isTarget_general general).mpr ⟨address, .inl mode⟩)⟩
    obtain ⟨plain, sized⟩ := fits immediate
    exact finds_immediate accepted general spoken ahead immediate plain sized
  · exact displaced (.inr (.inr mode))
  · exact finds_bare accepted general spoken (.inr mode)

theorem mem_pieceOf {gen : Nat} {tail : List Extension} {e : Extension} (member : e ∈ tail) :
    e ∈ (pieceOf gen tail op).extensions := by
  unfold pieceOf
  split
  · exact List.mem_append_left _ member
  · exact member

theorem returns_general {room : Nat} {piece : Piece}
    (lays : machine.Lays entry slot op room piece none) (inside : slot.pos + slot.width ≤ 32)
    (accepted : accepts slot.mode op.mode = true) (spoken : Spoken op) (formed : Formed op)
    (general : isGen slot.mode = true) (wide : slot.width = 5)
    (clean : ∀ e ∈ piece.extensions, (e.laid config base).2 = none) :
    machine.Returns base (Repeats base entry) entry slot op room piece none := by
  have run := lays (.blank config room) rfl rfl
  rw [encodeOperand_general general] at run
  have fits := fun immediate => fits_of_encodeGen immediate run
  have own := lays_general accepted general formed fits room
  rw [(lays.unique own inside).1] at clean
  refine (returns_pieceOf (behind_tailOf op slot.mode _) own general wide (genOf_lt formed slot.mode)
    (refuses_genOf accepted general) formed fun d more same ahead => ?_).of_lays lays inside
  exact finds_general accepted general spoken
    (fun immediate => ⟨(fits immediate).1, (fits immediate).2.1⟩)
    (fun e member => clean e (mem_pieceOf member)) same ahead

theorem returns_of_lays {room : Nat} {piece : Piece}
    (lays : machine.Lays entry slot op room piece none) (inside : slot.pos + slot.width ≤ 32)
    (proper : Proper entry slot) (accepted : accepts slot.mode op.mode = true) (spoken : Spoken op)
    (formed : Formed op) (clean : ∀ e ∈ piece.extensions, (e.laid config base).2 = none) :
    machine.Returns base (Repeats base entry) entry slot op room piece none := by
  have category := proper.category
  simp only [isCategory, Bool.or_eq_true, beq_iff_eq] at category
  rcases category with ((((general | quick) | disp) | constant) | list) | list
  · exact returns_general lays inside accepted spoken formed general (proper.general general) clean
  · exact returns_quick lays inside accepted spoken quick (proper.quick quick)
  · exact returns_ladder lays inside accepted spoken (.inl ⟨disp, rfl⟩) clean
  · exact returns_ladder lays inside accepted spoken (.inr ⟨constant, rfl⟩) clean
  · exact returns_list lays inside accepted spoken (.inl list)
  · exact returns_list lays inside accepted spoken (.inr list)

end Slots

/-- Whatever line is assembled without a fault, its bytes lead back to the entry that was chosen by
name, and each of its slots gives back the operand that was written: its form, its register, its
register list and its number, and its index if it stands in a general place. Elsewhere an index is
written in vain. -/
theorem decodeOperands_repeats {symbols : Symbols} {line : String} {address : UInt32}
    (clean : (machine.assemble symbols line address).fault = none)
    (filled : (machine.assemble symbols line address).bytes ≠ []) :
    ∃ name after page entry ops,
      (Cursor.start line).skipSpaces.ident? = some (name, after) ∧
      (machine.parseOperands symbols address after).1 = ops ∧
      machine.findByName name ops = .ok (page, entry) ∧
      ∀ suffix, machine.GivesBack (Repeats address.toNat entry)
        (machine.assemble symbols line address).bytes suffix address page entry ops := by
  obtain ⟨name, after, page, entry, ops, ident, read, found, writes⟩ := Machine.exists_found filled
  refine ⟨name, after, page, entry, ops, ident, read, found, fun suffix => ?_⟩
  have own := writes.own
  have fits := entryFits_of_own own
  obtain ⟨-, gapless, plain⟩ := page_of_own own
  refine writes.givesBack_of_returns clean (leadsTo_of_writes writes suffix) rfl rfl fits gapless plain
    customFollows (fun _ => rfl) (fun slot member op among accepted room => ?_)
    fun slot member op among accepted silent room piece lays laid => ?_
  · obtain ⟨scope, c, rfl⟩ := writes.parsed op among
    obtain ⟨piece, cause, returns⟩ := exists_returns (proper_of_own own member) accepted
      (formed_parseOperand scope c) room
    exact ⟨piece, cause, (returns 0).lays⟩
  · have within := (Entry.slot_of_fieldsApart (Machine.fieldsApart_of_entryFits fits) member).2
    have short := Machine.opcodeLength_le_of_entryFits fits
    obtain ⟨scope, c, rfl⟩ := writes.parsed op among
    exact returns_of_lays lays (by omega) (proper_of_own own member) accepted
      (spoken_parseOperand silent) (formed_parseOperand scope c) laid

/-- A short constant, a general operand with its index, and a branch target, in one line. -/
theorem decodeOperands_repeats_loop :
    let line := "ACBD -1,20(FP)[R3:W],4096"
    let bytes := [0xCF, 0xEF, 0xC3, 0x14, 0x00]
    machine.assemble ∅ line 0x1000 = ⟨0x1000, bytes, none⟩ ∧
      ∃ name after page entry ops,
        (Cursor.start line).skipSpaces.ident? = some (name, after) ∧
        (machine.parseOperands ∅ 0x1000 after).1 = ops ∧
        machine.findByName name ops = .ok (page, entry) ∧
        ∀ suffix, machine.GivesBack (Repeats 0x1000 entry) bytes suffix 0x1000 page entry ops := by
  intro line bytes
  have assembled : machine.assemble ∅ line 0x1000 = ⟨0x1000, bytes, none⟩ := by decide
  have back := decodeOperands_repeats
    (by rw [assembled] : (machine.assemble ∅ line 0x1000).fault = none) (by rw [assembled]; exact nofun)
  rw [assembled] at back
  exact ⟨assembled, back⟩

/-- An index behind a branch target does not reach the instruction, and nothing is reported. Behind an
immediate it is refused. -/
theorem branch_drops_index :
    let line := "BR 4112[R1:B]"
    let after : Cursor := ⟨2, " 4112[R1:B]".toList⟩
    let bytes := [0xEA, 0x10]
    (Cursor.start line).skipSpaces.ident? = some ("BR", after) ∧
      (machine.parseOperands ∅ 0x1000 after).1.map (fun op => (op.index, op.indexSize)) =
        [(some .r1, .byte)] ∧
      machine.assemble ∅ line 0x1000 = ⟨0x1000, bytes, none⟩ ∧
      (machine.findByOpcode bytes).map (fun found =>
        (machine.decodeOperands found.entry (machine.decoding found 0x1000 bytes)).1.map
          fun op => (op.index, op.indexSize)) = some [(none, .unsized)] ∧
      (machine.assemble ∅ "ADDD 5[R1:B],R0" 0x1000).fault = some ⟨.operandNotAllowed, 5⟩ := by
  decide

end CrossAsm.Ns32000

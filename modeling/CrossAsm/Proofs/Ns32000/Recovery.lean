import CrossAsm.Proofs.Ns32000.Operand

/-! What is assembled for the NS32000 is found again in the table. Operands that do not fit leave
something that can be read in their place. -/

namespace CrossAsm.Ns32000

/-! ### What the syntax gives -/

theorem number_lt_of_not_general {reg : Reg} (space : reg.isGeneral = false) : reg.number < 4 := by
  cases reg <;> simp [Reg.isGeneral, general, Reg.number] at space ⊢

/-- An operand without an index, and with a base of a memory space where it has such a mode. -/
structure Plain (op : Operand Mode Reg) : Prop where
  unindexed : op.index = none
  space : op.mode = .space → numberOf op < 4

theorem Plain.formed {op : Operand Mode Reg} (plain : Plain op) : Formed op where
  space := plain.space
  scaled index indexed := by simp [plain.unindexed] at indexed

theorem plain_of_mode {op : Operand Mode Reg} (unindexed : op.index = none)
    (other : op.mode ≠ .space) : Plain op :=
  ⟨unindexed, fun space => absurd space other⟩

theorem plain_parseRegisters {op : Operand Mode Reg} (plain : Plain op) (fuel : Nat) (c : Cursor) :
    Plain (parseRegisters op fuel c).1 := by
  induction fuel generalizing op c with
  | zero => exact plain
  | succ fuel ih =>
    simp only [parseRegisters]
    split
    · exact ⟨plain.unindexed, plain.space⟩
    · split
      · exact ⟨plain.unindexed, plain.space⟩
      · split
        · exact ⟨plain.unindexed, plain.space⟩
        · apply ih
          exact ⟨plain.unindexed, plain.space⟩
        · exact ⟨plain.unindexed, plain.space⟩

theorem plain_parseList (column : Nat) (c : Cursor) : Plain (parseList column c).1 := by
  have bare : Plain { mode := .regList, column } := plain_of_mode rfl nofun
  simp only [parseList]
  split
  · exact bare
  · exact plain_parseRegisters bare 9 _

theorem plain_parseBase (op : Operand Mode Reg) (plain : op.index = none) (v : Value) (c : Cursor) :
    Plain (parseBase op v c).1 := by
  simp only [parseBase]
  split
  · exact plain_of_mode rfl nofun
  next reg after found =>
    split
    · exact plain_of_mode rfl nofun
    · refine ⟨plain, fun space => ?_⟩
      cases general : reg.isGeneral with
      | true => simp [Operand.withValue, general] at space
      | false => exact number_lt_of_not_general general

theorem plain_parseAddress (scope : Scope) (column : Nat) (c : Cursor) :
    Plain (parseAddress scope column c).1 := by
  simp only [parseAddress]
  split
  · exact plain_of_mode rfl nofun
  · cases c.eat? '@' with
    | some after => exact plain_of_mode rfl nofun
    | none =>
      simp only [Bool.false_eq_true, if_false]
      split
      · apply plain_parseBase
        rfl
      · exact plain_of_mode rfl nofun

theorem plain_parsePlain (scope : Scope) (c : Cursor) : Plain (parsePlain scope c).1 := by
  simp only [parsePlain]
  split
  · exact plain_of_mode rfl nofun
  · split
    next reg after found =>
      cases general : reg.isGeneral <;> exact plain_of_mode rfl nofun
    · exact plain_parseAddress scope c.pos c

theorem exists_scaleCode {name : String} {size : Size} (known : scale? name = some size) :
    ∃ code, scaleCode? size = some code := by
  unfold scale? at known
  split at known <;> simp only [Option.some.injEq, reduceCtorEq] at known <;> subst known <;>
    exact ⟨_, rfl⟩

theorem formed_parseScaled {op : Operand Mode Reg} (plain : Plain op) (c : Cursor) :
    Formed (parseScaled op c).1 := by
  simp only [parseScaled]
  split
  · exact Plain.formed ⟨plain.unindexed, plain.space⟩
  · split
    · exact Plain.formed ⟨plain.unindexed, plain.space⟩
    · split
      · exact Plain.formed ⟨plain.unindexed, plain.space⟩
      · split
        · exact Plain.formed ⟨plain.unindexed, plain.space⟩
        next size known =>
          split
          · exact ⟨plain.space, fun _ _ => exists_scaleCode known⟩
          · exact Plain.formed ⟨plain.unindexed, plain.space⟩

theorem formed_parseOperand (scope : Scope) (c : Cursor) :
    Formed (machine.parseOperand scope c).1 := by
  change Formed (parseOperand scope c).1
  have plain := plain_parsePlain scope c
  simp only [parseOperand]
  split
  · exact (plain_parseList c.pos _).formed
  · split
    · exact plain.formed
    · split
      · exact formed_parseScaled plain _
      · exact plain.formed

/-! ### What is read back -/

/-- Nothing is asked of the operand that comes back. -/
def anything (_ : Slot Mode) (_ _ : Operand Mode Reg) : Prop := True

section Returns

variable {entry : Entry Mode} {slot : Slot Mode} {op : Operand Mode Reg}

/-- An operand that has its bytes behind all index bytes. -/
theorem returns_behind {Q : Slot Mode → Operand Mode Reg → Operand Mode Reg → Prop} {room : Nat}
    {piece : Piece} {cause : Option Cause} (lays : machine.Lays entry slot op room piece cause)
    (behind : ∀ e ∈ piece.extensions, e.stage = .payload)
    (unindexed : machine.hasIndexByte slot.mode (piece.field.toNat % twoPow slot.width) = false)
    (base : Int)
    (reads : ∀ (d : Decoding) (more : List UInt8), d.config = config →
      slot.read d.opcode = piece.field.toNat % twoPow slot.width →
      d.rest = piece.bytes config base .payload ++ more →
      ∃ back, machine.decodeOperand entry slot none d =
          (some back, d.past (piece.bytes config base .payload).length) ∧
        (d.base = base → Q slot op back)) :
    machine.Returns base Q entry slot op room piece cause := by
  have index : piece.bytes config base .index = [] := by
    rw [Piece.bytes, Extension.stageOf, List.flatMap_eq_nil_iff]
    intro e member
    simp [behind e member]
  exact
    { lays
      gapless := fun e member => by simp [behind e member]
      index := ⟨none, index, unindexed⟩
      reads := fun d more same field ahead => by
        obtain ⟨back, decoded, recovered⟩ := reads d more same field ahead
        have head : (piece.bytes machine.config base .index).head? = none := by
          rw [show machine.config = config from rfl, index, List.head?_nil]
        exact ⟨back, by rw [head, decoded]; rfl, recovered⟩ }

theorem returns_of_payload {room : Nat} {piece : Piece} {cause : Option Cause}
    (lays : machine.Lays entry slot op room piece cause)
    (behind : ∀ e ∈ piece.extensions, e.stage = .payload)
    (unindexed : machine.hasIndexByte slot.mode (piece.field.toNat % twoPow slot.width) = false)
    (base : Int)
    (reads : ∀ (d : Decoding) (more : List UInt8), d.config = config →
      slot.read d.opcode = piece.field.toNat % twoPow slot.width →
      d.rest = piece.bytes config base .payload ++ more →
      ∃ back, machine.decodeOperand entry slot none d =
        (some back, d.past (piece.bytes config base .payload).length)) :
    machine.Returns base anything entry slot op room piece cause :=
  returns_behind lays behind unindexed base fun d more same field ahead =>
    (reads d more same field ahead).imp fun _ decoded => ⟨decoded, fun _ => trivial⟩

theorem exists_returns_quick (quick : slot.mode = .quick) (room : Nat) :
    ∃ piece cause, ∀ base, machine.Returns base anything entry slot op room piece cause := by
  have shape : machine.shape slot.mode = .embedded true := by rw [quick]; rfl
  obtain ⟨field, cause, lays⟩ :=
    Machine.encodeEmbedded_eq slot op (fitsSigned op.value slot.width) .overflowRange
  refine ⟨{ field }, cause, fun base => returns_of_payload (fun d _ _ => ?_) (by simp) ?_ base ?_⟩
  · simp only [Machine.encodeOperand, shape, if_true, lays]
  · rw [quick]
    rfl
  · intro d more _ _ _
    exact ⟨_, (Machine.decodeOperand_embedded none shape).trans (by simp [Piece.bytes]; rfl)⟩

theorem exists_returns_ladder {relative : Bool} (shape : machine.shape slot.mode = .ladder relative)
    (other : isGen slot.mode = false) (room : Nat) :
    ∃ piece cause, ∀ base, machine.Returns base anything entry slot op room piece cause := by
  refine ⟨{ extensions := [displacement op relative] }, none, fun base =>
    returns_of_payload (fun d _ _ => ?_) ?_ ?_ base ?_⟩
  · simp only [Machine.encodeOperand, shape, d.extend_eq_lay slot]
    rfl
  · intro e member
    rw [List.mem_singleton.mp member]
    rfl
  · simp [machine, hasIndexByte, other]
  · intro d more same _ ahead
    obtain ⟨v, reads⟩ := exists_readLadder base op relative
    have alone : Piece.bytes { extensions := [displacement op relative] } config base .payload =
        ((displacement op relative).laid config base).1 :=
      (Extension.stageOf_singleton ..).trans (if_pos rfl)
    rw [alone] at ahead ⊢
    simp only [Machine.decodeOperand, shape, reads d more same ahead]
    exact ⟨_, rfl⟩

theorem exists_returns_list (list : slot.mode = .list ∨ slot.mode = .listRev) (room : Nat) :
    ∃ piece cause, ∀ base, machine.Returns base anything entry slot op room piece cause := by
  have lays : ∃ value : Int, ∀ d : Draft, d.config = config → machine.encodeOperand entry slot op d =
      (d.lay slot 0#32 [⟨.payload, .number value 1 config.endian, op.column⟩], none) := by
    rcases list with mode | mode
    · refine ⟨op.list.toNat, fun d same => ?_⟩
      rw [← same, ← d.extend_eq_lay slot]
      simp [Machine.encodeOperand, mode, machine, shape, encodeCustom, Draft.emit]
    · refine ⟨op.list.reverse.toNat, fun d same => ?_⟩
      rw [← same, ← d.extend_eq_lay slot]
      simp [Machine.encodeOperand, mode, machine, shape, encodeCustom, Draft.emit]
  obtain ⟨value, lays⟩ := lays
  refine ⟨{ extensions := [⟨.payload, .number value 1 config.endian, op.column⟩] }, none, fun base =>
    returns_of_payload (fun d same _ => ?_) ?_ ?_ base ?_⟩
  · exact lays d same
  · intro e member
    rw [List.mem_singleton.mp member]
  · rcases list with mode | mode <;> simp [machine, hasIndexByte, mode, isGen]
  · intro d more same _ ahead
    have alone : Piece.bytes { extensions := [⟨.payload, .number value 1 config.endian, op.column⟩] }
        config base .payload = config.endian.put 1 value := by
      simp [Piece.bytes, Extension.stageOf_singleton, Extension.laid_number]
    rw [alone] at ahead ⊢
    have read := d.readIn_eq d.config.endian (n := 1) (by simp [ahead]) (by decide)
    rcases list with mode | mode <;>
    · simp only [Machine.decodeOperand, mode, machine, shape, decodeCustom, Decoding.read, read]
      simp

/-- A general operand that fits its place. -/
theorem exists_returns_general (proper : Proper entry slot)
    (accepted : accepts slot.mode op.mode = true) (general : isGen slot.mode = true)
    (formed : Formed op) {n : Nat} (fits : isImmediate slot.mode op → op.index = none ∧
      Width.sized.bytes? entry.size = some n ∧
      (op.undefined || fitsSigned op.value (8 * n) || fitsUnsigned op.value (8 * n)) = true)
    (room : Nat) :
    ∃ piece cause, ∀ base, machine.Returns base anything entry slot op room piece cause := by
  have behind := behind_tailOf op slot.mode n
  refine ⟨pieceOf (genOf slot.mode op) (tailOf slot.mode n op) op, none, fun base => ?_⟩
  apply returns_pieceOf behind (lays_general accepted general formed fits room) general
    (proper.general general) (genOf_lt formed slot.mode) (refuses_genOf accepted general) formed
  intro d more same ahead
  obtain ⟨back, found⟩ := exists_decodeBase accepted general formed op.index.isSome
    (fun immediate => ⟨by simp [(fits immediate).1], (fits immediate).2.1⟩) same ahead
  exact ⟨back, found, fun _ => trivial⟩

/-- An immediate that cannot have its place leaves a register or a zero. -/
theorem exists_returns_misfit (proper : Proper entry slot) (general : slot.mode = .gen)
    (immediate : op.mode = .imm) {n : Nat} (sized : Width.sized.bytes? entry.size = some n)
    (misfit : ¬(op.index = none ∧
      (op.undefined || fitsSigned op.value (8 * n) || fitsUnsigned op.value (8 * n)) = true))
    (room : Nat) :
    ∃ piece cause, ∀ base, machine.Returns base anything entry slot op room piece cause := by
  have category : isGen slot.mode = true := by rw [general]; rfl
  have address : slot.mode ≠ .genA := by rw [general]; exact nofun
  have allowed (gen : Nat) : refuses slot.mode gen = false := by rw [general]; rfl
  have wide := proper.general category
  have short := Machine.Width.bytes?_le sized
  -- Without an index the field says immediate, with zeros behind; with one it stays at register 0.
  by_cases plain : op.index = none
  · have large : ¬(op.undefined || fitsSigned op.value (8 * n) || fitsUnsigned op.value (8 * n)) =
        true := fun small => misfit ⟨plain, small⟩
    have field : (BitVec.ofNat 32 genImmediate).toNat % twoPow slot.width = genImmediate := by
      rw [wide]
      rfl
    refine ⟨{ field := BitVec.ofNat 32 genImmediate
              extensions := [⟨.payload, .number 0 n config.endian, op.column⟩] },
      some .overflowRange, fun base => returns_of_payload (fun d same _ => ?_) ?_ ?_ base ?_⟩
    · have same : d.config = config := same
      simp only [encodeOperand_general category, encodeGen, encodeBase, immediate, if_neg address,
        encodeImmediate, plain, Option.isSome_none, Bool.false_eq_true, if_false, sized, if_neg large,
        Draft.emit, same, d.extend_eq_lay slot, Draft.embed_eq_lay]
      simp [Draft.lay]
    · intro e member
      rw [List.mem_singleton.mp member]
    · rw [field, general]
      rfl
    · intro d more same read ahead
      have zeros : Piece.bytes { field := BitVec.ofNat 32 genImmediate, extensions :=
          [⟨.payload, .number 0 n config.endian, op.column⟩] } config base .payload =
            config.endian.put n 0 := by
        simp [Piece.bytes, Extension.stageOf_singleton, Extension.laid_number]
      have length : (config.endian.put n 0).length = n := by simp [short]
      rw [zeros] at ahead ⊢
      have number := d.readIn_eq .big (by rw [ahead, List.length_append]; omega) short
      simp only [decodeOperand_general category, decodeGen, read, field, Option.map_none,
        Option.getD_none, allowed, Bool.false_eq_true, if_false, Option.isSome_none,
        decodeBase_immediate sized, number, length]
      exact ⟨_, rfl⟩
  · obtain ⟨index, indexed⟩ := Option.ne_none_iff_exists'.mp plain
    refine ⟨{}, some .operandNotAllowed, fun base =>
      returns_of_payload (fun d _ _ => ?_) (by simp) ?_ base ?_⟩
    · simp only [encodeOperand_general category, encodeGen, encodeBase, immediate, if_neg address,
        encodeImmediate, indexed, Option.isSome_some, if_true, ← d.eq_lay]
    · rw [general]
      simp [machine, hasIndexByte, genScaled]
    · intro d more _ read _
      have zero : slot.read d.opcode = 0 := by simpa using read
      simp only [decodeOperand_general category, decodeGen, zero, Option.map_none, Option.getD_none,
        allowed, Bool.false_eq_true, if_false, decodeBase_reg (show 0 < 8 by decide)]
      simp [Piece.bytes]

/-- Whatever the operand, something is laid down that can be read back. -/
theorem exists_returns (proper : Proper entry slot) (accepted : accepts slot.mode op.mode = true)
    (formed : Formed op) (room : Nat) :
    ∃ piece cause, ∀ base, machine.Returns base anything entry slot op room piece cause := by
  have category := proper.category
  cases mode : slot.mode with
  | quick => exact exists_returns_quick mode room
  | disp => exact exists_returns_ladder (by rw [mode]; rfl) (by rw [mode]; rfl) room
  | dispAbs => exact exists_returns_ladder (by rw [mode]; rfl) (by rw [mode]; rfl) room
  | list => exact exists_returns_list (.inl mode) room
  | listRev => exact exists_returns_list (.inr mode) room
  | genW =>
    refine exists_returns_general (n := 0) proper accepted (by rw [mode]; rfl) formed ?_ room
    rintro ⟨immediate, -⟩
    rw [mode, immediate] at accepted
    exact absurd accepted (by decide)
  | genA =>
    exact exists_returns_general (n := 0) proper accepted (by rw [mode]; rfl) formed
      (fun immediate => absurd mode immediate.2) room
  | gen =>
    obtain ⟨n, sized⟩ := proper.sized mode
    by_cases fits : op.mode = .imm → op.index = none ∧
      (op.undefined || fitsSigned op.value (8 * n) || fitsUnsigned op.value (8 * n)) = true
    · exact exists_returns_general proper accepted (by rw [mode]; rfl) formed
        (fun immediate => ⟨(fits immediate.1).1, sized, (fits immediate.1).2⟩) room
    · obtain ⟨immediate, misfit⟩ := Classical.not_imp.mp fits
      exact exists_returns_misfit proper mode immediate sized misfit room
  | reg | regRel | space | imm | abs | tos | regList | pcrel =>
    rw [mode] at category
    exact absurd category (by decide)

end Returns

/-- The bytes of a line that is read as an entry lead to this entry. -/
theorem leadsTo_of_writes {symbols : Symbols} {line : String} {address : UInt32} {name : String}
    {hit : Page Mode × Entry Mode} {ops : List (Operand Mode Reg)}
    (writes : machine.Writes symbols line address name hit ops) (suffix : List UInt8) :
    machine.LeadsTo (machine.assemble symbols line address).bytes suffix address hit := by
  obtain ⟨-, gapless, plain⟩ := page_of_own writes.own
  obtain ⟨base, pieces, fault, returns, assembled⟩ := writes.exists_returns rfl
    fun slot among op member accepted room => by
      obtain ⟨scope, c, rfl⟩ := writes.parsed op member
      exact exists_returns (proper_of_own writes.own among) accepted (formed_parseOperand scope c) room
  obtain ⟨hits, clean, whole, -⟩ := Machine.finish_of_returns returns suffix
    (entryFits_of_own writes.own) gapless plain customFollows address
  rw [assembled]
  exact ⟨find?_of_hits writes.own hits, clean, whole⟩

end CrossAsm.Ns32000

import CrossAsm.Proofs.Recovery
import CrossAsm.Proofs.Z80.Table

/-! What is assembled for the Z80 is found again in the table. A register field never holds the number
of memory at HL by mistake, so no entry that stands earlier is taken instead. -/

namespace CrossAsm.Z80

/-- Bytes behind the opcode for restart vectors and interrupt modes, which are fields of it. -/
def noBytes (_ : Mode) : Nat := 0

/-- An interrupt mode is laid down as one of three fields. -/
def modeField (slot : Slot Mode) (_ : Operand Mode Reg) (piece : Piece) (_ : Option Cause) : Prop :=
  slot.mode = .imMode → piece.field ∈ [0#32, 2#32, 3#32]

section Laying

variable {entry : Entry Mode} {slot : Slot Mode} {op : Operand Mode Reg} {room : Nat}

theorem customField_mode {field : Int} (mode : slot.mode = .imMode)
    (known : customField slot.mode op = .ok field) : BitVec.ofInt 32 field ∈ [0#32, 2#32, 3#32] := by
  simp only [customField, mode, reduceCtorEq, if_false] at known
  split at known
  · obtain rfl : 0 = field := by simpa using known
    decide
  · obtain rfl : 2 = field := by simpa using known
    decide
  · obtain rfl : 3 = field := by simpa using known
    decide
  · simp at known

theorem exists_stands_custom (custom : machine.shape slot.mode = .custom) :
    ∃ piece cause, machine.Stands noBytes modeField entry slot op room piece cause := by
  have outside : machine.inGap slot = false := by simp [Machine.inGap, custom]
  have short : machine.span noBytes entry slot = 0 := by simp [Machine.span, custom, noBytes]
  have lays (d : Draft) : machine.encodeOperand entry slot op d = encodeCustom entry slot op d := by
    simp only [Machine.encodeOperand, custom]
    rfl
  cases known : customField slot.mode op with
  | ok field =>
    refine ⟨{ field := BitVec.ofInt 32 field }, none, Machine.stands_field ?_ outside short
      (by simp [custom]) (by simp [custom]) fun _ mode => customField_mode mode known⟩
    intro d _ _
    simp only [lays, encodeCustom, known, d.embed_eq_lay]
  | error cause =>
    refine ⟨{}, some cause, Machine.stands_field ?_ outside short (by simp [custom])
      (by simp [custom]) fun _ _ => by simp⟩
    intro d _ _
    simp only [lays, encodeCustom, known, ← d.eq_lay]

theorem exists_stands (fits : machine.fieldFits slot = true) :
    ∃ piece cause, machine.Stands noBytes modeField entry slot op room piece cause :=
  Machine.exists_stands compact fits exists_stands_custom

end Laying

/-! ### Fields -/

/-- A byte register has its own number; memory at HL takes the one that is left. -/
theorem registerField_byte {category : Mode} {op : Operand Mode Reg} {n : Nat}
    (byte : category = .reg8 ∨ category = .reg8M) (field : registerField category op = .ok n) :
    n < 8 ∧ (n = 6 → op.mode = .indHl) := by
  have numbers : ∀ reg : Reg, ∀ n ∈ byteRegisters.idxOf? (some reg), n < 8 ∧ n ≠ 6 := by
    intro reg
    cases reg <;> decide
  by_cases memory : op.mode = .indHl
  · simp only [registerField, memory, if_true, Except.ok.injEq] at field
    subst field
    exact ⟨by decide, fun _ => memory⟩
  · have number : op.reg.bind (fun reg => byteRegisters.idxOf? (some reg)) = some n := by
      rcases byte with rfl | rfl <;>
      · simp only [registerField, memory, if_false, reduceCtorEq, false_and] at field
        split at field
        · simp at field
        next found => simpa [found] using field
    obtain ⟨reg, -, known⟩ := Option.bind_eq_some_iff.mp number
    obtain ⟨small, other⟩ := numbers reg n known
    exact ⟨small, fun six => absurd six other⟩

theorem registerOperand_isSome {category : Mode} (shaped : shape category = .register) :
    ∀ field < 8, (category = .reg8 → field ≠ 6) → (registerOperand category field).isSome = true := by
  cases category <;> simp only [shape, reduceCtorEq] at shaped <;> decide

section Written

variable {hit : Page Mode × Entry Mode} {ops : List (Operand Mode Reg)}
  {pieces : List (Slot Mode × Piece)} {fault : Option Fault} {opcode : BitVec 32}
  (own : hit ∈ machine.ownEntries)
  (laid : Pieces (fun slot op room piece cause => accepts slot.mode op.mode = true ∧
    machine.Stands noBytes modeField hit.2 slot op room piece cause) hit.2.slots ops hit.1.gap
    pieces fault)
  (coded : opcode = hit.2.opcode ||| placeAll (pieces.map fun p => (p.1, p.2.field)))

include own laid coded

/-- A byte register in the opcode has the number of memory at HL only if that is written. -/
theorem memory_of_field : List.Forall₂ (fun s op => accepts s.mode op.mode = true ∧
    (s.mode = .reg8 ∨ s.mode = .reg8M → s.read opcode = 6 → op.mode = .indHl)) hit.2.slots ops := by
  refine (forall₂_mem laid.forall₂).imp ?_
  rintro s op ⟨member, -, room, piece, cause, ⟨accepted, stands⟩, present, -⟩
  refine ⟨accepted, fun byte six => ?_⟩
  have width : twoPow s.width = 8 := by
    rw [(slot_of_own own member).2]
    rcases byte with mode | mode <;> rw [mode] <;> rfl
  rw [Machine.read_of_pieces (entryFits_of_own own) laid coded present, width] at six
  rcases stands.register (by rcases byte with mode | mode <;> rw [mode] <;> rfl) with
    none | ⟨n, field, holds⟩
  · simp [none] at six
  · obtain ⟨small, memory⟩ := registerField_byte byte field
    rw [holds, BitVec.toNat_ofNat] at six
    exact memory (by omega)

theorem register_of_field {s : Slot Mode} (member : s ∈ hit.2.slots) (mode : s.mode = .reg8) :
    s.read opcode ≠ 6 := by
  intro six
  obtain ⟨op, -, accepted, memory⟩ :=
    exists_right_of_forall₂ (memory_of_field own laid coded) member
  rw [mode, memory (.inl mode) six] at accepted
  exact absurd accepted (by decide)

theorem legible_of_laid {s : Slot Mode} (member : s ∈ hit.2.slots) :
    machine.Legible noBytes hit.2 s opcode := by
  have width := (slot_of_own own member).2
  refine Machine.legible_of_compact compact
    (Machine.fieldFits_of_entryFits (entryFits_of_own own) member) (fun shaped => ?_) fun custom => ?_
  · have bound := s.read_lt opcode
    have narrow : twoPow s.width ≤ 8 := by
      rw [width]
      cases s.mode <;> decide
    exact registerOperand_isSome shaped _ (by omega) (register_of_field own laid coded member)
  · intro d _ same _
    change (decodeCustom hit.2 s none d).2 = d.past 0
    rw [d.past_zero]
    by_cases vector : s.mode = .rst
    · simp [decodeCustom, vector]
    · have mode : s.mode = .imMode := (mode_of_custom custom).resolve_left vector
      obtain ⟨op, -, room, piece, cause, ⟨-, stands⟩, present, -⟩ :=
        exists_right_of_forall₂ laid.forall₂ member
      have field := stands.custom custom mode
      have read := Machine.read_of_pieces (entryFits_of_own own) laid coded present
      rw [width, mode] at read
      have known : s.read opcode = 0 ∨ s.read opcode = 2 ∨ s.read opcode = 3 := by
        rw [read]
        simp only [List.mem_cons, List.not_mem_nil, or_false] at field
        rcases field with field | field | field <;> rw [field] <;> decide
      simp only [decodeCustom, vector, if_false, same]
      rcases known with field | field | field <;> simp [field]

/-- What is written for an entry is none of the opcodes that cannot be. -/
theorem not_unwritable (checked : check hit.2 ops = none) : unwritable hit opcode = false := by
  rw [Bool.eq_false_iff]
  intro wrong
  simp only [unwritable, Bool.or_eq_true, List.any_eq_true, Bool.and_eq_true, beq_iff_eq,
    List.all_eq_true] at wrong
  rcases wrong with ⟨s, member, mode, six⟩ | ⟨⟨name, two⟩, both⟩
  · exact register_of_field own laid coded member mode six
  · -- A load from and to memory at HL did not pass the check.
    have memory := memory_of_field own laid coded
    have halts : (hit.2.name == "LD" && ops.length == 2 && ops.all (·.mode == .indHl)) = true := by
      simp only [name, ← memory.length_eq, two, beq_self_eq_true, Bool.true_and, List.all_eq_true,
        beq_iff_eq]
      intro op among
      obtain ⟨s, member, -, only⟩ := exists_left_of_forall₂ memory among
      exact only (.inr (both s member).1) (both s member).2
    simp [check, halts] at checked

end Written

/-- Every line that gives bytes leads back to the entry it was read as. -/
theorem leadsTo_of_writes {symbols : Symbols} {line : String} {address : UInt32} {name : String}
    {hit : Page Mode × Entry Mode} {ops : List (Operand Mode Reg)}
    (writes : machine.Writes symbols line address name hit ops) (suffix : List UInt8) :
    machine.LeadsTo (machine.assemble symbols line address).bytes suffix address hit := by
  have own := writes.own
  obtain ⟨pieces, early, late, gap, opcode, payload, laid, coded, -, complete, assembled⟩ :=
    writes.exists_complete rfl (entryFits_of_own own) fun slot member _ _ _ _ =>
      exists_stands (Machine.fieldFits_of_entryFits (entryFits_of_own own) member)
  rw [assembled]
  apply complete.leadsTo unindexed customFollows fun s member => legible_of_laid own laid coded member
  have covers := Machine.covers_of_pieces (entryFits_of_own own) laid coded
  have hits : machine.hits (machine.instruction hit.1 gap opcode payload ++ suffix) hit = true := by
    rw [complete.hits_eq, covers, postHolds_of_own own]
    rfl
  obtain ⟨first, member, found, matched, -⟩ := exists_first own hits
  rw [found]
  rcases eq_or_unwritable own found hits with rfl | ⟨lead, gaps, each⟩
  · rfl
  · -- What hides the entry would cover an opcode that cannot be written.
    rw [complete.hits_of_page lead gaps
      ((opcodeCells_of_own member).trans (opcodeCells_of_own own).symm), Bool.and_eq_true] at matched
    have small : opcode.toNat < 256 := by
      have bound := complete.small
      rwa [Machine.opcodeLength, opcodeCells_of_own own] at bound
    have wrong := each opcode.toNat small
    rw [BitVec.ofNat_toNat, BitVec.setWidth_eq] at wrong
    rw [not_unwritable own laid coded writes.checked] at wrong
    exact absurd (wrong matched.1 covers) (by decide)

end CrossAsm.Z80

import CrossAsm.Proofs.Faithful
import CrossAsm.Proofs.Z80.Recovery
import CrossAsm.Proofs.Z80.Restore

/-! Assembling for the Z80 is faithful operand by operand. An operand means the same register,
memory or number when it is written and when it is decoded, though the modes of the two differ: a line
is read in the modes of the operand syntax, and an instruction is decoded in the modes of its slots. -/

namespace CrossAsm.Z80

/-- What an operand stands for. -/
inductive Meaning where
  /-- A register or a condition. -/
  | register (reg : Reg)
  /-- Memory, or a port, that a register points to. -/
  | pointed (reg : Reg) (displacement : Int)
  /-- Memory, or a port, at an address. -/
  | located (address : Int)
  | number (value : Int)
deriving DecidableEq, Repr

/-- The meaning of an operand, as it is written or as it is decoded. -/
def meaning? (op : Operand Mode Reg) : Option Meaning :=
  match op.mode with
  | .indHl | .memHl => some (.pointed .hl op.value)
  | .indBc | .memBc => some (.pointed .bc op.value)
  | .indDe | .memDe => some (.pointed .de op.value)
  | .indSp | .memSp => some (.pointed .sp op.value)
  | .indC | .memC => some (.pointed .c op.value)
  | .indIx | .idxIx | .jpIx => some (.pointed .ix op.value)
  | .indIy | .idxIy | .jpIy => some (.pointed .iy op.value)
  | .indAbs | .abs16 | .port => some (.located op.value)
  | .imm | .imm8 | .imm16 | .addr | .rel | .bit | .rst | .imMode => some (.number op.value)
  | .afP => some (.register .afAlt)
  | mode => ((named? mode).or op.reg).map .register

/-- What a slot keeps of a number: the bytes of an immediate, the place of a target in the address
space, and every other number as it is. -/
def kept (category : Mode) (v : Int) : Int :=
  match category with
  | .imm8 => v % 2 ^ 8
  | .imm16 | .rel => v % 2 ^ 16
  | _ => v

/-- The operand that comes back means what was written, as far as the slot keeps it. -/
def Agrees (slot : Slot Mode) (op back : Operand Mode Reg) : Prop :=
  ∃ meaning, meaning? { op with value := kept slot.mode op.value } = some meaning ∧
    meaning? back = some meaning

/-! ### Operands as they are written -/

/-- What is known of an operand that was read without a fault. -/
inductive Spoken (op : Operand Mode Reg) : Prop where
  | register (reg : Reg) (mode : op.mode = reg.mode) (named : op.reg = some reg)
  | pointed (reg : Reg) (mode : indirect? reg = some op.mode)
      (plain : op.mode ≠ .indIx → op.mode ≠ .indIy → op.value = 0)
  | located (mode : op.mode = .indAbs)
  | number (mode : op.mode = .imm)

theorem parseIndexed_of_clean {scope : Scope} {op : Operand Mode Reg} {c : Cursor}
    (clean : (parseIndexed scope op c).1.fault = none) :
    ∃ v undefined fault, (parseIndexed scope op c).1 = { op with value := v, undefined, fault } ∧
      (op.undefined = false → undefined = false) := by
  simp only [parseIndexed] at clean ⊢
  split at clean
  next signed =>
    have closed := Operand.closed_of_clean clean
    rw [if_pos signed, closed]
    rw [closed] at clean
    obtain ⟨v, read⟩ := Operand.parseValue_of_clean clean
    exact ⟨v, false, none, read, fun _ => rfl⟩
  next unsigned =>
    rw [if_neg unsigned, Operand.close_of_clean clean]
    exact ⟨op.value, op.undefined, op.fault, rfl, id⟩

theorem spoken_parseIndirect {scope : Scope} {column : Nat} {c : Cursor}
    (clean : (parseIndirect scope column c).1.fault = none) :
    Spoken (parseIndirect scope column c).1 ∧
      (parseIndirect scope column c).1.undefined = false := by
  simp only [parseIndirect] at clean ⊢
  split at clean
  next reg after found =>
    split at clean
    next mode pointer =>
      split at clean
      next index =>
        rw [if_pos index]
        obtain ⟨v, undefined, fault, read, known⟩ := parseIndexed_of_clean clean
        rw [read]
        refine ⟨.pointed reg pointer fun ix iy => absurd index (not_or.mpr ⟨ix, iy⟩), known rfl⟩
      next index =>
        rw [if_neg index, Operand.close_of_clean clean]
        exact ⟨.pointed reg pointer fun _ _ => rfl, rfl⟩
    · simp [Operand.failed] at clean
  next found =>
    have closed := Operand.closed_of_clean clean
    rw [closed] at clean ⊢
    obtain ⟨v, read⟩ := Operand.parseValue_of_clean clean
    rw [read]
    exact ⟨.located rfl, rfl⟩

theorem spoken_parseOperand {scope : Scope} {c : Cursor}
    (clean : (parseOperand scope c).1.fault = none) :
    Spoken (parseOperand scope c).1 ∧ (parseOperand scope c).1.undefined = false := by
  unfold parseOperand at clean ⊢
  split at clean
  next after opened =>
    exact spoken_parseIndirect clean
  next opened =>
    split at clean
    next reg after found =>
      exact ⟨.register reg rfl rfl, rfl⟩
    next found =>
      obtain ⟨v, read⟩ := Operand.parseValue_of_clean clean
      rw [read]
      exact ⟨.number rfl, rfl⟩

theorem meaning?_register {op : Operand Mode Reg} {reg : Reg} (mode : op.mode = reg.mode)
    (named : op.reg = some reg) : meaning? op = some (.register reg) := by
  cases reg <;> simp [meaning?, mode, Reg.mode, named?, named]

theorem meaning?_pointed {op : Operand Mode Reg} {reg : Reg} (mode : indirect? reg = some op.mode) :
    meaning? op = some (.pointed reg op.value) := by
  cases reg <;> simp only [indirect?, Option.some.injEq, reduceCtorEq] at mode <;>
    simp [meaning?, ← mode]

/-! ### What comes back from a slot -/

section Slots

variable {entry : Entry Mode} {slot : Slot Mode} {op back : Operand Mode Reg} {base : Int}

/-- Neither a register nor a slot that stands for one operand: the number is all there is to it. -/
theorem agrees_of_number (accepted : accepts slot.mode op.mode = true)
    (register : shape slot.mode ≠ .register) (implied : shape slot.mode ≠ .implied)
    (mode : back.mode = slot.mode) (value : back.value = kept slot.mode op.value) :
    Agrees slot op back := by
  unfold Agrees
  cases category : slot.mode <;>
    simp only [category, shape, ne_eq, not_true_eq_false] at register implied <;>
    simp_all [accepts, meaning?, kept]

theorem kept_eq_self {category : Mode}
    (shaped : shape category = .implied ∨ shape category = .register) (v : Int) :
    kept category v = v := by
  cases category <;> simp [shape] at shaped <;> rfl

theorem agrees_of_recovered (accepted : accepts slot.mode op.mode = true)
    (register : machine.shape slot.mode ≠ .register) (implied : machine.shape slot.mode ≠ .implied)
    (recovered : machine.Recovered entry slot op back) : Agrees slot op back := by
  have number : back.mode = slot.mode ∧ back.value = kept slot.mode op.value := by
    unfold Machine.Recovered at recovered
    cases category : slot.mode <;> rw [category] at recovered register implied <;>
      simp_all [machine, shape, kept, Width.bytes?, twoPow_eq, Config.wrap, config]
  exact agrees_of_number accepted register implied number.1 number.2

/-- Slots that stand for one operand. -/
def impliedCategories : List Mode :=
  [.a, .hl, .de, .sp, .af, .afP, .i, .r, .ix, .iy, .memHl, .memBc, .memDe, .memSp, .memC, .jpIx, .jpIy]

theorem mem_impliedCategories (accepted : accepts slot.mode op.mode = true)
    (implied : shape slot.mode = .implied) : slot.mode ∈ impliedCategories := by
  cases category : slot.mode <;> simp_all [accepts, shape, impliedCategories]

theorem mem_registers (reg : Reg) : reg ∈ .afAlt :: words := by
  cases reg <;> decide

theorem not_number : ∀ category ∈ impliedCategories ++ registerCategories,
    accepts category .indAbs = false ∧ accepts category .imm = false := by decide

theorem register_of_implied : ∀ category ∈ impliedCategories, ∀ reg ∈ .afAlt :: words,
    accepts category reg.mode = true →
    meaning? { mode := category, column := 0 } = some (.register reg) := by
  decide

theorem pointed_of_implied : ∀ category ∈ impliedCategories, ∀ reg ∈ .afAlt :: words,
    ∀ mode ∈ indirect? reg, accepts category mode = true →
    meaning? { mode := category, column := 0 } = some (.pointed reg 0) ∧
      (mode = .indIx ∨ mode = .indIy → category = .jpIx ∨ category = .jpIy) := by
  decide

/-- A slot that stands for one operand means what is written for it. -/
theorem agrees_implied (accepted : accepts slot.mode op.mode = true)
    (implied : shape slot.mode = .implied) (spoken : Spoken op)
    (still : slot.mode = .jpIx ∨ slot.mode = .jpIy → op.value = 0) (column : Nat) :
    Agrees slot op { mode := slot.mode, column } := by
  have category := mem_impliedCategories accepted implied
  have registers := not_number slot.mode (List.mem_append_left _ category)
  rw [Agrees, kept_eq_self (.inl implied)]
  cases spoken with
  | register reg mode named =>
    rw [mode] at accepted
    exact ⟨_, meaning?_register mode named,
      register_of_implied _ category reg (mem_registers reg) accepted⟩
  | pointed reg mode plain =>
    obtain ⟨points, jumps⟩ := pointed_of_implied _ category reg (mem_registers reg) _ mode accepted
    -- A jump takes no displacement, and other memory has none.
    have none : op.value = 0 := by
      by_cases index : op.mode = .indIx ∨ op.mode = .indIy
      · exact still (jumps index)
      · rw [not_or] at index
        exact plain index.1 index.2
    refine ⟨_, meaning?_pointed mode, ?_⟩
    rw [none]
    exact points
  | located mode => simp [mode, registers.1] at accepted
  | number mode => simp [mode, registers.2] at accepted

/-- A register that a slot takes has a number that stands for it again. -/
theorem register_of_number : ∀ category ∈ registerCategories, ∀ reg ∈ .afAlt :: words,
    accepts category reg.mode = true → ∀ n ∈ (registerField category
      { mode := reg.mode, reg := some reg, column := 0 }).toOption,
    n < twoPow (fieldWidth category) ∧
      ∃ back ∈ registerOperand category n, meaning? back = some (.register reg) := by
  decide

/-- Memory at HL is the only memory that a register field stands for. -/
theorem pointed_of_number : ∀ category ∈ registerCategories, ∀ reg ∈ .afAlt :: words,
    ∀ mode ∈ indirect? reg, accepts category mode = true →
    reg = .hl ∧ 6 < twoPow (fieldWidth category) ∧
      ∃ back ∈ registerOperand category 6, meaning? back = some (.pointed .hl 0) := by
  decide

/-- A register field stands for the register, the condition or the memory that is written. -/
theorem agrees_register (accepted : accepts slot.mode op.mode = true)
    (shaped : shape slot.mode = .register) (spoken : Spoken op) {n : Nat}
    (field : registerField slot.mode op = .ok n) :
    n < twoPow (fieldWidth slot.mode) ∧
      ∃ back, registerOperand slot.mode n = some back ∧ Agrees slot op back := by
  have category := mem_registerCategories shaped
  have registers := not_number slot.mode (List.mem_append_right _ category)
  simp only [Agrees, kept_eq_self (.inr shaped)]
  cases spoken with
  | register reg mode named =>
    have same : registerField slot.mode { mode := reg.mode, reg := some reg, column := 0 } = .ok n := by
      rw [← mode, ← named]
      exact field
    rw [mode] at accepted
    obtain ⟨small, back, found, means⟩ := register_of_number _ category reg (mem_registers reg) accepted
      n (by rw [same]; rfl)
    exact ⟨small, back, found, _, meaning?_register mode named, means⟩
  | pointed reg mode plain =>
    obtain ⟨rfl, small, back, found, means⟩ :=
      pointed_of_number _ category reg (mem_registers reg) _ mode accepted
    -- The field 6 stands for it in every one of these slots.
    have memory : op.mode = .indHl := by simpa [indirect?] using mode.symm
    obtain rfl : 6 = n := by simpa [registerField, memory] using field
    refine ⟨small, back, found, _, meaning?_pointed mode, ?_⟩
    rw [plain (by simp [memory]) (by simp [memory])]
    exact means
  | located mode => simp [mode, registers.1] at accepted
  | number mode => simp [mode, registers.2] at accepted

/-- A restart vector and an interrupt mode are fields of the opcode with a rule of their own. -/
theorem agrees_custom (entry : Entry Mode) (accepted : accepts slot.mode op.mode = true)
    (custom : shape slot.mode = .custom) (width : slot.width = fieldWidth slot.mode)
    (known : op.undefined = false) {field : Int} (coded : customField slot.mode op = .ok field)
    {d : Decoding} (read : slot.read d.opcode = (BitVec.ofInt 32 field).toNat % twoPow slot.width) :
    ∃ back, decodeCustom entry slot none d = (some back, d) ∧ Agrees slot op back := by
  have word : slot.width ≤ 32 := by
    rw [width]
    cases slot.mode <;> decide
  have bits := Machine.toNat_ofInt_mod field word
  rw [← read] at bits
  have agrees {back : Operand Mode Reg} (mode : back.mode = slot.mode)
      (value : back.value = kept slot.mode op.value) : Agrees slot op back :=
    agrees_of_number accepted (by simp [custom]) (by simp [custom]) mode value
  by_cases vector : slot.mode = .rst
  · -- One of eight vectors, which are eight bytes apart.
    simp only [customField, vector, if_true, known, Bool.false_eq_true, if_false] at coded
    split at coded
    next valid =>
      obtain rfl : op.value / 8 = field := by simpa using coded
      rw [width, vector] at bits
      change (slot.read d.opcode : Int) = op.value / 8 % 8 at bits
      simp only [decodeCustom, vector, if_true]
      refine ⟨_, rfl, agrees vector.symm ?_⟩
      simp only [vector, kept]
      omega
    · simp at coded
  · have mode : slot.mode = .imMode := (mode_of_custom custom).resolve_left vector
    simp only [customField, mode, reduceCtorEq, if_false] at coded
    rw [width, mode] at bits
    change (slot.read d.opcode : Int) = field % 4 at bits
    -- The modes 1 and 2 have the fields 2 and 3.
    have decoded : (slot.read d.opcode = 0 ∧ op.value = 0) ∨
        (slot.read d.opcode = 2 ∧ op.value = 1) ∨ (slot.read d.opcode = 3 ∧ op.value = 2) := by
      split at coded <;> simp only [Except.ok.injEq, reduceCtorEq] at coded <;> omega
    simp only [decodeCustom, vector, if_false]
    rcases decoded with ⟨field, value⟩ | ⟨field, value⟩ | ⟨field, value⟩ <;> rw [field] <;>
      exact ⟨_, rfl, agrees rfl (by simp [mode, kept, value])⟩

/-- Every operand without a fault is laid down so that its meaning comes back. -/
theorem answers (accepted : accepts slot.mode op.mode = true) (spoken : Spoken op)
    (known : op.undefined = false) (width : slot.width = fieldWidth slot.mode)
    (still : slot.mode = .jpIx ∨ slot.mode = .jpIy → op.value = 0) (base : Int) :
    machine.Answers base Agrees entry slot op := by
  intro d next config run
  have word : slot.width ≤ 32 := by
    rw [width]
    cases slot.mode <;> decide
  cases shaped : machine.shape slot.mode with
  | implied =>
    simp only [Machine.encodeOperand, shaped, Prod.mk.injEq, and_true] at run
    rw [show next = d.lay slot 0#32 [] by rw [← run, ← d.eq_lay slot]]
    refine Machine.answered_field fun state _ => ⟨_, Machine.decodeOperand_implied none shaped, ?_⟩
    exact agrees_implied accepted shaped spoken still _
  | register =>
    cases field : machine.registerField slot.mode op with
    | error cause => simp [Machine.encodeOperand, shaped, Machine.encodeRegister, field] at run
    | ok n =>
      obtain ⟨small, back, found, agrees⟩ := agrees_register accepted shaped spoken field
      simp only [Machine.encodeOperand, shaped, Machine.encodeRegister, field, d.embed_eq_lay,
        Prod.mk.injEq, and_true] at run
      rw [← run]
      refine Machine.answered_field fun state read => ⟨back, ?_, agrees⟩
      rw [Machine.toNat_ofNat_mod word (width ▸ small)] at read
      exact Machine.decodeOperand_register none shaped (read ▸ found)
  | custom =>
    simp only [Machine.encodeOperand, shaped] at run
    change encodeCustom entry slot op d = (next, none) at run
    cases coded : customField slot.mode op with
    | error cause => simp [encodeCustom, coded] at run
    | ok field =>
      simp only [encodeCustom, coded, d.embed_eq_lay, Prod.mk.injEq, and_true] at run
      rw [← run]
      refine Machine.answered_field fun state read => ?_
      obtain ⟨back, decoded, agrees⟩ := agrees_custom entry accepted shaped width known coded read
      refine ⟨back, ?_, agrees⟩
      simp only [Machine.decodeOperand, shaped]
      exact decoded
  | bit =>
    exact Machine.answered_of_bears (Machine.exists_bears_bit run word known shaped) fun back =>
      agrees_of_recovered accepted (by simp [shaped]) (by simp [shaped])
  | immediate bytes =>
    exact Machine.answered_of_bears (Machine.exists_bears_immediate run config known shaped)
      fun back => agrees_of_recovered accepted (by simp [shaped]) (by simp [shaped])
  | absolute bytes =>
    exact Machine.answered_of_bears (Machine.exists_bears_absolute run config known shaped)
      fun back => agrees_of_recovered accepted (by simp [shaped]) (by simp [shaped])
  | relative bytes =>
    exact Machine.answered_of_bears (Machine.exists_bears_relative run known shaped)
      fun back => agrees_of_recovered accepted (by simp [shaped]) (by simp [shaped])
  | indexed disp signed =>
    -- The index register is named by the slot, so the opcode has no field for it.
    have bare : ¬0 < slot.width := by
      rw [width]
      rcases mode_of_indexed shaped with mode | mode <;> rw [mode] <;> decide
    exact Machine.answered_of_bears
      (Machine.exists_bears_indexed run config word known (fun wide => absurd wide bare) shaped rfl)
      fun back => agrees_of_recovered accepted (by simp [shaped]) (by simp [shaped])
  | embedded signed => cases mode : slot.mode <;> simp [mode, machine, shape] at shaped
  | ladder relative => cases mode : slot.mode <;> simp [mode, machine, shape] at shaped

end Slots

/-- The check lets no jump with a displacement pass. -/
theorem still_of_check {entry : Entry Mode} {ops : List (Operand Mode Reg)}
    (checked : check entry ops = none) {op : Operand Mode Reg} (among : op ∈ ops) {slot : Slot Mode}
    (member : slot ∈ entry.slots) (jump : slot.mode = .jpIx ∨ slot.mode = .jpIy) : op.value = 0 := by
  by_contra moved
  have jumps : (entry.slots.any fun slot => slot.mode == .jpIx || slot.mode == .jpIy) = true :=
    List.any_eq_true.mpr ⟨slot, member, by simpa using jump⟩
  have displaced : (ops.any (·.value != 0)) = true :=
    List.any_eq_true.mpr ⟨op, among, by simpa using moved⟩
  simp [check, jumps, displaced] at checked

/-- Whatever line is assembled without a fault, its bytes lead back to the entry that was chosen by
name, and each of its slots gives an operand that means what was written: the same register,
condition or memory, and the same number as far as the slot keeps it. -/
theorem decodeOperands_assembled {symbols : Symbols} {line : String} {address : UInt32}
    (clean : (machine.assemble symbols line address).fault = none)
    (filled : (machine.assemble symbols line address).bytes ≠ []) :
    ∃ name after page entry ops,
      (Cursor.start line).skipSpaces.ident? = some (name, after) ∧
      (machine.parseOperands symbols address after).1 = ops ∧
      machine.findByName name ops = .ok (page, entry) ∧
      ∀ suffix, machine.GivesBack Agrees (machine.assemble symbols line address).bytes suffix address
        page entry ops := by
  obtain ⟨name, after, page, entry, ops, ident, read, found, writes⟩ := Machine.exists_found filled
  refine ⟨name, after, page, entry, ops, ident, read, found, fun suffix => ?_⟩
  have own := writes.own
  have fits := entryFits_of_own own
  refine writes.givesBack clean (leadsTo_of_writes writes suffix) rfl compact fits unindexed
    (fun _ => rfl)
    (fun slot member _ _ _ _ => exists_stands (Machine.fieldFits_of_entryFits fits member))
    fun slot member op among accepted silent base => ?_
  have jumps := still_of_check writes.checked among member
  obtain ⟨scope, c, rfl⟩ := writes.parsed op among
  obtain ⟨spoken, known⟩ := spoken_parseOperand silent
  exact answers accepted spoken known (slot_of_own own member).2 jumps base

/-- A displacement that stands in front of the constant it is stored with. The constant comes back as
the byte it has. -/
theorem decodeOperands_assembled_indexed :
    let line := "LD (IX-5),-1"
    let bytes := [0xDD, 0x36, 0xFB, 0xFF]
    machine.assemble ∅ line 0x100 = ⟨0x100, bytes, none⟩ ∧
      ∃ name after page entry ops,
        (Cursor.start line).skipSpaces.ident? = some (name, after) ∧
        (machine.parseOperands ∅ 0x100 after).1 = ops ∧
        machine.findByName name ops = .ok (page, entry) ∧
        ∀ suffix, machine.GivesBack Agrees bytes suffix 0x100 page entry ops := by
  intro line bytes
  have assembled : machine.assemble ∅ line 0x100 = ⟨0x100, bytes, none⟩ := by decide
  have back := decodeOperands_assembled
    (by rw [assembled] : (machine.assemble ∅ line 0x100).fault = none) (by rw [assembled]; exact nofun)
  rw [assembled] at back
  exact ⟨assembled, back⟩

end CrossAsm.Z80

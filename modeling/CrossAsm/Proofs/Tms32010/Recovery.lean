import CrossAsm.Proofs.Recovery
import CrossAsm.Proofs.Tms32010.Word

/-! What is assembled for the TMS32010 is found again in the table. The entry that is found is the
longest form of the instruction, whose further operands can be read from the word all the same. -/

namespace CrossAsm.Tms32010

/-- The name under which an instruction with these operands is decoded: naming the next register and
nothing else has a name of its own. -/
def decodedName (name : String) (ops : List (Operand Mode Reg)) : String :=
  match ops with
  | [memory, _] => if name = "MAR" ∧ memory.mode = .ind ∧ memory.value = 0 then "LARP" else name
  | _ => name

/-- No operand with rules of its own has bytes behind the word. -/
def noBytes (_ : Mode) : Nat := 0

/-- An address in the page, or an indirect code with a step. -/
def readable (code : BitVec 32) : Bool := code &&& indirect == 0 || (step? code).isSome

/-- The operand of the slot can be read from the word. -/
structure Readable (slot : Slot Mode) (word : BitVec 32) : Prop where
  memory : slot.mode = .mem → readable (codeOf word) = true
  store : slot.mode = .sachShift → storeShift (slot.read word) = true

theorem Readable.legible {slot : Slot Mode} {word : BitVec 32} (readable : Readable slot word)
    (proper : Proper slot) (entry : Entry Mode) : machine.Legible noBytes entry slot word := by
  refine Machine.legible_of_compact compact proper.fits (fun _ => rfl) fun custom d _ same _ => ?_
  change (decodeCustom entry slot none d).2 = d.past 0
  rw [d.past_zero]
  have custom : shape slot.mode = .custom := custom
  cases mode : slot.mode <;> simp only [mode, shape, reduceCtorEq] at custom
  case narp =>
    simp only [decodeCustom, mode]
    split <;> rfl
  case sachShift =>
    have allowed := readable.store mode
    simp only [decodeCustom, mode, same, allowed, if_true]
  case mem =>
    have code := readable.memory mode
    rw [← same] at code
    simp only [Tms32010.readable, Bool.or_eq_true, beq_iff_eq, Option.isSome_iff_exists] at code
    have low : d.opcode &&& 255 = codeOf d.opcode := rfl
    simp only [decodeCustom, mode, low]
    rcases code with direct | ⟨step, known⟩
    · rw [if_pos direct]
    · split
      · rfl
      · rw [known]

/-! ### Fields of the word -/

/-- The low byte is the code of an operand in memory. -/
def Codes (op : Operand Mode Reg) (word : BitVec 32) : Prop :=
  if op.mode = .ind then codeOf word = indirectCode op.value else codeOf word &&& indirect = 0

theorem codeOf_indirectCode (step : Int) : codeOf (indirectCode step) = indirectCode step := by
  unfold indirectCode
  split
  · decide
  · split <;> decide

/-- The operand becomes a field of the word that can be read back. -/
structure Fills (entry : Entry Mode) (slot : Slot Mode) (op : Operand Mode Reg) (room : Nat)
    (piece : Piece) (cause : Option Cause) : Prop where
  lays : machine.Lays entry slot op room piece cause
  bare : piece.extensions = []
  memory : slot.mode = .mem → Codes op piece.field
  store : slot.mode = .sachShift → storeShift (piece.field.toNat % twoPow slot.width) = true

section Fills

variable {entry : Entry Mode} {slot : Slot Mode} {op : Operand Mode Reg} {room : Nat}

theorem exists_fills_mem : ∃ piece cause, Fills entry mem op room piece cause := by
  by_cases marked : op.mode = .ind
  · exact ⟨{ field := indirectCode op.value }, none, fun d _ _ => encode_indirect marked d, rfl,
      fun _ => by rw [Codes, if_pos marked, codeOf_indirectCode], nofun⟩
  by_cases fits : (op.undefined || fitsUnsigned op.value 7) = true
  · refine ⟨{ field := BitVec.ofInt 32 op.value &&& 127 }, none, fun d _ _ => ?_, rfl, fun _ => ?_,
      nofun⟩
    · rw [encode_direct marked, if_pos fits]
    · have clear : (127 : BitVec 32) &&& 0xFF &&& indirect = 0#32 := by decide
      rw [Codes, if_neg marked, codeOf, BitVec.and_assoc, BitVec.and_assoc, ← BitVec.and_assoc 127, clear,
        BitVec.and_zero]
      rfl
  · refine ⟨{}, some .overflowRange, fun d _ _ => ?_, rfl, fun _ => ?_, nofun⟩
    · rw [encode_direct marked, if_neg fits, ← d.eq_lay]
    · rw [Codes, if_neg marked]
      rfl

theorem exists_fills_store : ∃ piece cause, Fills entry storeSlot op room piece cause := by
  have lays (d : Draft) : machine.encodeOperand entry storeSlot op d =
      if storeShift op.value then (d.lay storeSlot (BitVec.ofInt 32 op.value) [], none)
      else (d, some .illegalConstant) := by
    rw [encodeOperand_custom rfl, ← d.embed_eq_lay]
    rfl
  by_cases allowed : storeShift op.value = true
  · refine ⟨{ field := BitVec.ofInt 32 op.value }, none, fun d _ _ => ?_, rfl, nofun, fun _ => ?_⟩
    · rw [lays, if_pos allowed]
    · simp only [storeShift, decide_eq_true_eq] at allowed
      rcases allowed with value | value | value <;> rw [value] <;> decide
  · refine ⟨{}, some .illegalConstant, fun d _ _ => ?_, rfl, nofun, fun _ => rfl⟩
    rw [lays, if_neg allowed, ← d.eq_lay]

theorem exists_fills (proper : Proper slot) (inWord : slot.mode ≠ .pma)
    (other : slot.mode ≠ .narp) : ∃ piece cause, Fills entry slot op room piece cause := by
  by_cases memory : slot.mode = .mem
  · rw [proper.memory memory]
    exact exists_fills_mem
  by_cases shift : slot.mode = .sachShift
  · rw [proper.store shift]
    exact exists_fills_store
  suffices ∃ field cause, ∀ d, machine.encodeOperand entry slot op d = (d.lay slot field [], cause) by
    obtain ⟨field, cause, lays⟩ := this
    exact ⟨{ field }, cause, fun d _ _ => lays d, rfl, fun mode => absurd mode memory,
      fun mode => absurd mode shift⟩
  have embedded (signed : Bool) (shaped : machine.shape slot.mode = .embedded signed) :
      ∃ field cause, ∀ d, machine.encodeOperand entry slot op d = (d.lay slot field [], cause) := by
    simpa only [Machine.encodeOperand, shaped] using Machine.encodeEmbedded_eq slot op _ _
  cases mode : slot.mode with
  | imm | ind | arReg =>
    have category := proper.category
    simp [mode, isCategory] at category
  | mem => exact absurd mode memory
  | narp => exact absurd mode other
  | sachShift => exact absurd mode shift
  | pma => exact absurd mode inWord
  | shift | port | k1 | k8 | arp => exact embedded false (by rw [mode]; rfl)
  | k13 => exact embedded true (by rw [mode]; rfl)
  | ar =>
    have shaped : machine.shape slot.mode = .register := by rw [mode]; rfl
    cases register : machine.registerField slot.mode op with
    | ok n =>
      refine ⟨BitVec.ofNat 32 n, none, fun d => ?_⟩
      simp only [Machine.encodeOperand, shaped, Machine.encodeRegister, register, d.embed_eq_lay]
    | error cause =>
      refine ⟨0#32, some cause, fun d => ?_⟩
      simp only [Machine.encodeOperand, shaped, Machine.encodeRegister, register, ← d.eq_lay]

end Fills

/-! ### Words -/

/-- A next register pointer takes the place of the bit that keeps the pointer. -/
def pointAt (word : BitVec 32) (next : BitVec 32) : BitVec 32 := word &&& ~~~keepPointer ||| next

/-- The operand in memory has the whole low byte. -/
theorem low_and_not_slotMask {slots : List (Slot Mode)} (member : mem ∈ slots) :
    (0xFF : BitVec 32) &&& ~~~slotMask slots = 0#32 := by
  apply BitVec.eq_of_getLsbD_eq
  intro i bound
  rw [BitVec.getLsbD_and, BitVec.getLsbD_not, Entry.getLsbD_slotMask]
  cases low : (0xFF : BitVec 32).getLsbD i with
  | false => simp
  | true =>
    have covered : slots.any (·.mask.getLsbD i) = true := List.any_eq_true.mpr ⟨mem, member, low⟩
    simp [covered]

section Pointer

variable {next : BitVec 32} (single : next = 0#32 ∨ next = 1#32) (word : BitVec 32)

include single

theorem codeOf_pointAt : codeOf (pointAt word next) = pointAt (codeOf word) next := by
  have low : (255 : BitVec 32) &&& next = next := by rcases single with rfl | rfl <;> rfl
  simp only [codeOf, pointAt]
  rw [BitVec.and_comm, BitVec.and_or_distrib_left, low, ← BitVec.and_assoc, BitVec.and_comm 255]

/-- Outside the low byte nothing changes. -/
theorem pointAt_and {mask : BitVec 32} (high : (0xFF : BitVec 32) &&& mask = 0#32) :
    pointAt word next &&& mask = word &&& mask := by
  have outside : next &&& mask = 0#32 := by
    have low : next &&& (255 : BitVec 32) = next := by rcases single with rfl | rfl <;> rfl
    rw [← low, BitVec.and_assoc, high, BitVec.and_zero]
  have other : keepPointer &&& mask = 0#32 := by
    have low : keepPointer &&& (255 : BitVec 32) = keepPointer := rfl
    rw [← low, BitVec.and_assoc, high, BitVec.and_zero]
  apply BitVec.eq_of_getLsbD_eq
  intro i bound
  have nextBit := congrArg (BitVec.getLsbD · i) outside
  have keepBit := congrArg (BitVec.getLsbD · i) other
  simp only [BitVec.getLsbD_and] at nextBit keepBit
  simp only [pointAt, BitVec.getLsbD_and, BitVec.getLsbD_or, BitVec.getLsbD_not, bound, decide_true,
    Bool.true_and]
  revert nextBit keepBit
  cases word.getLsbD i <;> cases mask.getLsbD i <;> cases next.getLsbD i <;>
    cases keepPointer.getLsbD i <;> simp

end Pointer

theorem readable_indirectCode (step : Int) : readable (indirectCode step) = true := by
  unfold indirectCode
  split
  · decide
  · split <;> decide

theorem readable_pointAt {next : BitVec 32} (single : next = 0#32 ∨ next = 1#32) (step : Int) :
    readable (pointAt (indirectCode step) next) = true := by
  unfold indirectCode
  rcases single with rfl | rfl <;> split
  · decide
  · split <;> decide
  · decide
  · split <;> decide

/-- Operands that are fields of the word are put side by side. -/
theorem encodeOperands_fills {entry : Entry Mode} {slots : List (Slot Mode)}
    {ops : List (Operand Mode Reg)} {pieces : List (Slot Mode × Piece)} {early : Option Fault}
    {d : Draft} {room : Nat} (fills : Pieces (Fills entry) slots ops room pieces early)
    (config : d.config = machine.config) (roomy : d.room = room) :
    machine.encodeOperands entry slots ops d =
      (d.setOpcode (d.opcode ||| placeAll (pieces.map fun p => (p.1, p.2.field))), early) := by
  have bare : pieces.flatMap (·.2.extensions) = [] := by
    clear roomy
    induction fills with
    | nil => rfl
    | cons first _ ih => rw [List.flatMap_cons, first.bare, ih, List.nil_append]
  rw [Machine.encodeOperands_eq (fills.imp fun _ _ _ _ _ fills => fills.lays) d config roomy,
    Draft.layAll_eq, bare, List.append_nil]
  rfl

/-- What the word shows of an operand in memory, alone or with the register that is next. -/
structure Shows (hit : Page Mode × Entry Mode) (ops : List (Operand Mode Reg)) (word : BitVec 32) :
    Prop where
  alone : hit.2.slots = [mem] → ∃ memory, ops = [memory] ∧ Codes memory word
  pointed : hit.2.slots = [mem, pointer] → ∃ memory next register, ops = [memory, next] ∧
    memory.mode = .ind ∧ (register = 0#32 ∨ register = 1#32) ∧
    codeOf word = pointAt (indirectCode memory.value) register

section Word

variable {hit : Page Mode × Entry Mode} {slots : List (Slot Mode)} {ops : List (Operand Mode Reg)}
  {room : Nat} {pieces : List (Slot Mode × Piece)} {early : Option Fault}
  (own : hit ∈ machine.ownEntries) (fills : Pieces (Fills hit.2) slots ops room pieces early)
  (forms : hit.2.slots = slots ∨ hit.2.slots = slots ++ [pointer])

include own fills forms

omit own in
/-- A next register pointer has no bits of its own, so the fields are those in front of it. -/
theorem exists_fields : ∃ fields : List (Slot Mode × BitVec 32), fields.map (·.1) = hit.2.slots ∧
    placeAll fields = placeAll (pieces.map fun p => (p.1, p.2.field)) ∧
    ∀ p ∈ pieces, (p.1, p.2.field) ∈ fields := by
  have front : (pieces.map fun p => (p.1, p.2.field)).map (·.1) = slots := by
    rw [List.map_map]
    exact fills.slots_eq
  rcases forms with whole | whole
  · exact ⟨_, whole ▸ front, rfl, fun p member => List.mem_map_of_mem member⟩
  · refine ⟨(pieces.map fun p => (p.1, p.2.field)) ++ [(pointer, 0#32)], ?_, ?_, fun p member => ?_⟩
    · rw [List.map_append, front, whole]
      rfl
    · rw [placeAll_append]
      simp [placeAll]
    · exact List.mem_append_left _ (List.mem_map_of_mem member)

/-- The word before a next register pointer is named. -/
theorem word_of_fills :
    let word := hit.2.opcode ||| placeAll (pieces.map fun p => (p.1, p.2.field))
    hit.2.covers word = true ∧ word.toNat < 0x10000 ∧
      ∀ p ∈ pieces, p.1.read word = p.2.field.toNat % twoPow p.1.width ∧
        (p.1 = mem → codeOf word = codeOf p.2.field) := by
  intro word
  obtain ⟨fields, named, same, among⟩ := exists_fields fills forms
  have apart := Machine.fieldsApart_of_entryFits (entryFits_of_own own)
  have two : machine.opcodeLength hit.1 = 2 := by
    rw [Machine.opcodeLength, (page_of_own own).2.2.1]
    rfl
  have whole : word = hit.2.opcode ||| placeAll fields := by rw [same]
  rw [two] at apart
  rw [whole]
  refine ⟨Entry.covers_placeAll named (opcode_apart own), Entry.opcode_placeAll_lt apart named,
    fun p member => ?_⟩
  have read := Entry.read_opcode_placeAll apart (by decide) named (among p member)
  refine ⟨read, fun memory => ?_⟩
  rw [memory, read_mem] at read
  apply BitVec.eq_of_toNat_eq
  rw [read, codeOf, BitVec.toNat_and]
  exact (Nat.and_two_pow_sub_one_eq_mod p.2.field.toNat 8).symm

end Word

/-- How a line became its word, and what can be read from that. -/
structure Worded (hit : Page Mode × Entry Mode) (ops : List (Operand Mode Reg)) (word : BitVec 32)
    (early : Option Fault) : Prop where
  covers : hit.2.covers word = true
  small : word.toNat < 0x10000
  readable : ∀ s ∈ hit.2.slots, Readable s word
  shows : early = none → Shows hit ops word

section Lines

variable {symbols : Symbols} {line : String} {address : UInt32} {name : String}
  {hit : Page Mode × Entry Mode} {ops : List (Operand Mode Reg)}
  (writes : machine.Writes symbols line address name hit ops)

include writes

/-- The operands in front of a next register pointer, and the word they make up. -/
theorem exists_front {front : List (Slot Mode)} {early : List (Operand Mode Reg)}
    (accepted : List.Forall₂ (fun slot op => accepts slot.mode op.mode = true) front early)
    (forms : hit.2.slots = front ∨ hit.2.slots = front ++ [pointer])
    (plain : ∀ s ∈ front, s.mode ≠ .pma ∧ s.mode ≠ .narp) :
    ∃ word fault, machine.encodeOperands hit.2 front early (machine.draft hit.1 hit.2 address) =
        ((machine.draft hit.1 hit.2 address).setOpcode word, fault) ∧
      hit.2.covers word = true ∧ word.toNat < 0x10000 ∧
      List.Forall₂ (fun s op => accepts s.mode op.mode = true ∧
        (s.mode = .mem → s = mem ∧ Codes op word) ∧
        (s.mode = .sachShift → storeShift (s.read word) = true)) front early := by
  have own := writes.own
  have member {s : Slot Mode} (inside : s ∈ front) : s ∈ hit.2.slots := by
    rcases forms with whole | whole <;> simp [whole, inside]
  obtain ⟨pieces, fault, related⟩ := Pieces.exists_of_each (R := Fills hit.2)
    (fun slot op ⟨inside, _, _⟩ room => exists_fills (proper_of_own own (member inside))
      (plain slot inside).1 (plain slot inside).2) (forall₂_mem accepted) hit.1.gap
  have fills := related.imp fun _ _ _ _ _ => And.right
  have run := encodeOperands_fills fills (d := machine.draft hit.1 hit.2 address) rfl rfl
  obtain ⟨covers, small, each⟩ := word_of_fills own fills forms
  refine ⟨hit.2.opcode ||| placeAll (pieces.map fun p => (p.1, p.2.field)), fault, run, covers, small,
    (forall₂_mem related.forall₂).imp ?_⟩
  rintro s op ⟨inside, -, room, piece, cause, ⟨⟨-, -, accepted⟩, filled⟩, present, -⟩
  obtain ⟨read, code⟩ := each _ present
  refine ⟨accepted, fun mode => ?_, fun mode => ?_⟩
  · have same := (proper_of_own own (member inside)).memory mode
    refine ⟨same, ?_⟩
    rw [Codes, code same]
    exact filled.memory mode
  · rw [read]
    exact filled.store mode

omit writes in
theorem readable_of_codes {op : Operand Mode Reg} {word : BitVec 32} (codes : Codes op word) :
    readable (codeOf word) = true := by
  unfold Codes at codes
  split at codes
  · rw [codes, readable_indirectCode]
  · simp [readable, codes]

/-- An entry without a next register pointer whose operands are all in the word. -/
theorem exists_word_plain (inWord : ∀ s ∈ hit.2.slots, s.mode ≠ .pma) (short : isFull hit = false) :
    ∃ word fault, machine.assemble symbols line address =
        ⟨address, Endian.big.put 2 word.toNat, fault⟩ ∧ Worded hit ops word fault := by
  have own := writes.own
  obtain ⟨lead, gapless, cells, -⟩ := page_of_own own
  obtain ⟨word, fault, run, covers, small, each⟩ := exists_front writes writes.accepted (.inl rfl)
    fun s member => ⟨inWord s member, pointerless_of_not_full own short member⟩
  refine ⟨word, _, writes.assembled.trans (encode_word lead cells run), covers, small,
    fun s member => ?_, fun _ => ⟨fun alone => ?_, fun pointed => ?_⟩⟩
  · obtain ⟨op, -, -, memory, store⟩ := exists_right_of_forall₂ each member
    exact ⟨fun mode => readable_of_codes (memory mode).2, store⟩
  · rw [alone] at each
    obtain ⟨memory, rfl⟩ := List.length_eq_one_iff.mp each.length_eq.symm
    obtain ⟨⟨-, codes, -⟩, -⟩ := List.forall₂_cons.mp each
    exact ⟨memory, rfl, (codes rfl).2⟩
  · rw [isFull, pointed] at short
    exact absurd short (by decide)

omit writes in
theorem memory_of_accepts {category : Mode} (taken : accepts category .ind = true) :
    category = .mem := by
  revert taken
  cases category <;> decide

/-- An operand is indirect where the entry takes a next register pointer. -/
theorem exists_indirect (full : isFull hit = true) : ∃ op ∈ ops, op.mode = .ind := by
  have pointers : hit.2.slots.any (·.mode == .narp) = true := by
    rw [(split_of_full writes.own full).1]
    simp [pointer, Slot.bare]
  have checked : check hit.2 ops = none := writes.checked
  cases indirect : ops.any (·.mode == .ind) with
  | true => simpa using indirect
  | false => simp [check, pointers, indirect] at checked

/-- An entry with a next register pointer, which has an indirect operand in memory. -/
theorem exists_word_full (full : isFull hit = true) :
    ∃ word fault, machine.assemble symbols line address =
        ⟨address, Endian.big.put 2 word.toNat, fault⟩ ∧ Worded hit ops word fault := by
  have own := writes.own
  obtain ⟨lead, gapless, cells, -⟩ := page_of_own own
  obtain ⟨whole, others⟩ := split_of_full own full
  have accepted := writes.accepted
  rw [whole] at accepted
  obtain ⟨front, more, rfl, frontAccepted, moreAccepted⟩ := exists_append_of_forall₂ accepted
  obtain ⟨next, rfl⟩ := List.length_eq_one_iff.mp moreAccepted.length_eq.symm
  obtain ⟨word, early, run, covers, small, each⟩ := exists_front writes frontAccepted (.inr whole)
    fun s member => by
      have inside : s ∈ hit.2.slots := by rw [whole]; simp [member]
      refine ⟨fun branch => ?_, others s member⟩
      have memory := mem_of_full own full
      rw [branch_of_own own inside branch] at memory
      exact absurd memory (by decide)
  -- Before the pointer is put in, the code in the word is that of the indirect operand.
  have coded (op : Operand Mode Reg) (marked : op.mode = .ind) (member : op ∈ front) :
      codeOf word = indirectCode op.value := by
    obtain ⟨s, -, taken, memory, -⟩ := exists_left_of_forall₂ each member
    have codes := (memory (memory_of_accepts (marked ▸ taken))).2
    rwa [Codes, if_pos marked] at codes
  obtain ⟨op, marked, member⟩ : ∃ op, op.mode = .ind ∧ op ∈ front := by
    obtain ⟨op, member, marked⟩ := exists_indirect writes full
    rcases List.mem_append.mp member with inside | last
    · exact ⟨op, marked, inside⟩
    · obtain rfl := List.mem_singleton.mp last
      obtain ⟨taken, -⟩ := List.forall₂_cons.mp moreAccepted
      rw [marked] at taken
      exact absurd taken (by decide)
  have code := coded op marked member
  have both := @Machine.encodeOperands_append _ _ machine hit.2 hit.2.slots.dropLast [pointer] front
    [next] frontAccepted.length_eq (machine.draft hit.1 hit.2 address)
  rw [← whole, run] at both
  simp only [Machine.encodeOperands, encode_pointer, Option.or_none] at both
  have store (s : Slot Mode) (inside : s ∈ hit.2.slots) (mode : s.mode = .sachShift) :
      storeShift (s.read word) = true := by
    rw [whole, List.mem_append, List.mem_singleton] at inside
    rcases inside with inside | rfl
    · obtain ⟨op, -, -, -, store⟩ := exists_right_of_forall₂ each inside
      exact store mode
    · exact absurd mode (by decide)
  -- A pointer that fits goes into bits that the entry leaves open; another leaves the word as it is.
  by_cases fits : fitsUnsigned next.value 1 = true
  · simp only [fits, if_true] at both
    have single : BitVec.ofInt 32 next.value = 0#32 ∨ BitVec.ofInt 32 next.value = 1#32 := by
      obtain ⟨low, high⟩ := (fitsUnsigned_iff (by decide)).mp fits
      have two : twoPow 1 = 2 := rfl
      obtain value | value : next.value = 0 ∨ next.value = 1 := by omega
      · exact .inl (by rw [value]; rfl)
      · exact .inr (by rw [value]; rfl)
    refine ⟨pointAt word (BitVec.ofInt 32 next.value), _,
      writes.assembled.trans (encode_word lead cells both), ?_, ?_, fun s inside => ⟨fun mode => ?_,
        fun mode => ?_⟩, fun _ => ⟨fun alone => ?_, fun pointed => ?_⟩⟩
    · rw [Entry.covers_iff] at covers ⊢
      rw [pointAt_and single word (low_and_not_slotMask (mem_of_full own full)), covers]
    · rw [pointAt, BitVec.toNat_or, BitVec.toNat_and]
      exact Nat.or_lt_two_pow (n := 16) (Nat.lt_of_le_of_lt Nat.and_le_left small)
        (by rcases single with next | next <;> rw [next] <;> decide)
    · rw [codeOf_pointAt single, code]
      exact readable_pointAt single _
    · have same := (proper_of_own own inside).store mode
      have kept := store s inside mode
      rw [same, Slot.read] at kept ⊢
      rwa [pointAt_and single word (by decide)]
    · rw [isFull, alone] at full
      exact absurd full (by decide)
    · rw [pointed] at frontAccepted
      obtain ⟨memory, rfl⟩ := List.length_eq_one_iff.mp frontAccepted.length_eq.symm
      obtain rfl := List.mem_singleton.mp member
      exact ⟨op, next, _, rfl, marked, single, by rw [codeOf_pointAt single, code]⟩
  · simp only [fits, Bool.false_eq_true, if_false] at both
    refine ⟨word, _, writes.assembled.trans (encode_word lead cells both), covers, small,
      fun s inside => ⟨fun mode => ?_, store s inside⟩, ?_⟩
    · rw [code, readable_indirectCode]
    · simp

end Lines

/-! ### The entry that is found -/

/-- The register pointer set and nothing else done. -/
def larp : Page Mode × Entry Mode := ({ entries := base }, .of "LARP" 0x6880 [.field .arp 0 1])

/-- What the later entry puts into a word can be read as the earlier one, under the same name or as
the register pointer. -/
def standsFor (earlier later : Page Mode × Entry Mode) : Bool :=
  later.2.slots.all (·.mode != .pma) &&
    earlier.2.slots.all (fun s => later.2.slots.contains s ||
      s.mode != .mem && s.mode != .pma && (s.mode != .sachShift ||
        s.mask &&& slotMask later.2.slots == 0 && s.mask &&& later.2.opcode == 0)) &&
    (earlier.2.name == later.2.name || earlier.2.name == "LARP" && later.2.name == "MAR")

set_option maxRecDepth 20000 in
theorem table_apart : machine.entries.Pairwise fun earlier later =>
    (Pattern.overlaps (machine.patternOf earlier) (machine.patternOf later) &&
      !standsFor earlier later) = false := by
  refine machine.pairwise_of_overlaps [7, 6, 5, 4] (fun earlier later both => ?_) (by decide)
  simp only [Bool.not_eq_false, Bool.and_eq_true] at both
  exact both.1

/-- The entries that one name stands for two of. -/
def pointing (hit : Page Mode × Entry Mode) : Bool :=
  (hit.2.name != "LARP" || hit.2.opcode == 0x6880 && hit.2.slots == [.field .arp 0 1]) &&
    (hit.2.name != "MAR" || hit.2.opcode == 0x6800 &&
      (hit.2.slots == [mem] || hit.2.slots == [mem, pointer]))

set_option maxRecDepth 20000 in
theorem table_pointing : machine.entries.all pointing = true := by decide

section Found

variable {hit first : Page Mode × Entry Mode} {rest : List UInt8}
  (found : machine.ownEntries.find? (machine.hits rest) = some first)
  (own : hit ∈ machine.ownEntries) (matched : machine.hits rest hit = true)

include found own matched

/-- The entry that is found stands for every entry that matches. -/
theorem eq_or_standsFor : first = hit ∨ standsFor first hit = true := by
  have member := List.mem_of_find?_eq_some found
  have short (other : Page Mode × Entry Mode) (own : other ∈ machine.ownEntries) :
      machine.opcodeLength other.1 ≤ 4 :=
    Machine.opcodeLength_le_of_entryFits (entryFits_of_own own)
  have overlaps := machine.overlaps_of_hits (short first member) (short hit own)
    (List.find?_some found) matched
  refine (eq_or_related_of_find? (table_apart.filter _) found own matched).imp_right fun apart => ?_
  simpa [overlaps] using apart

theorem name_of_found (other : first.2.name ≠ "LARP") : first.2.name = hit.2.name := by
  rcases eq_or_standsFor found own matched with rfl | stands
  · rfl
  · simp only [standsFor, Bool.and_eq_true, Bool.or_eq_true, beq_iff_eq] at stands
    exact stands.2.resolve_right fun ⟨larp, _⟩ => other larp

/-- All operands of the entry that is found can be read from the word. -/
theorem readable_of_found {word : BitVec 32} (covers : hit.2.covers word = true)
    (readable : ∀ s ∈ hit.2.slots, Readable s word) (inWord : ∀ s ∈ hit.2.slots, s.mode ≠ .pma) :
    ∀ s ∈ first.2.slots, Readable s word ∧ s.mode ≠ .pma := by
  intro s member
  rcases eq_or_standsFor found own matched with rfl | stands
  · exact ⟨readable s member, inWord s member⟩
  simp only [standsFor, Bool.and_eq_true, List.all_eq_true, Bool.or_eq_true, List.contains_iff_mem,
    bne_iff_ne, beq_iff_eq] at stands
  rcases stands.1.2 s member with shared | ⟨⟨memory, branch⟩, store⟩
  · exact ⟨readable s shared, inWord s shared⟩
  refine ⟨⟨fun mode => absurd mode memory, fun mode => ?_⟩, branch⟩
  -- A shift that was not written is zero.
  obtain ⟨apart, clear⟩ := store.resolve_left (absurd mode)
  have zero : word &&& s.mask = 0#32 := by
    rw [← Entry.eq_placeAll_of_covers covers, BitVec.and_comm, BitVec.and_or_distrib_left, clear,
      placeAll_read, BitVec.and_comm word, ← BitVec.and_assoc, apart]
    simp
  rw [s.read_eq_zero zero]
  rfl

end Found

/-- A word of an entry leads to an entry that takes just it. -/
theorem leadsTo_of_word {first : Page Mode × Entry Mode} {word : BitVec 32} {suffix : List UInt8}
    (address : UInt32) (small : word.toNat < 0x10000)
    (readable : ∀ s ∈ first.2.slots, Readable s word ∧ s.mode ≠ .pma)
    (found : machine.ownEntries.find? (machine.hits (Endian.big.put 2 word.toNat ++ suffix)) =
      some first) :
    machine.LeadsTo (Endian.big.put 2 word.toNat) suffix address first := by
  have own := List.mem_of_find?_eq_some found
  obtain ⟨lead, gapless, cells, -⟩ := page_of_own own
  have two : machine.opcodeLength first.1 = 2 := by
    rw [Machine.opcodeLength, cells]
    rfl
  have none : machine.gapLength first.1 = 0 := by rw [Machine.gapLength, gapless, Nat.zero_mul]
  have whole : machine.instruction first.1 [] word [] = Endian.big.put 2 word.toNat := by
    rw [Machine.instruction, lead, two, List.append_nil]
    rfl
  have extent (slots : List (Slot Mode)) (inWord : ∀ s ∈ slots, s.mode ≠ .pma) :
      machine.extent noBytes first.2 slots 0 = 0 := by
    induction slots with
    | nil => rfl
    | cons slot slots ih =>
      have own : machine.span noBytes first.2 slot = 0 := by
        have branch := inWord slot (by simp)
        unfold Machine.span
        cases mode : slot.mode <;> first | rfl | exact absurd mode branch
      simp [Machine.extent, own, ih fun s member => inWord s (by simp [member])]
  have complete : machine.Complete noBytes first [] word [] := {
    gapped := none.symm
    long := by rw [none, extent _ fun s member => (readable s member).2]; rfl
    short := by rw [two]; decide
    small := by rw [two]; exact small }
  rw [← whole] at found ⊢
  exact complete.leadsTo unindexed customFollows (fun s member =>
    (readable s member).1.legible (proper_of_own own member) first.2) address found

/-! ### The name -/

section Pointing

variable {hit : Page Mode × Entry Mode} (own : hit ∈ machine.ownEntries)

include own

theorem pointing_of_own : pointing hit = true :=
  List.all_eq_true.mp table_pointing hit (machine.mem_ownEntries.mp own).1

/-- The name of the register pointer stands for words with this code. -/
theorem code_of_larp {word : BitVec 32} (named : hit.2.name = "LARP")
    (covers : hit.2.covers word = true) : codeOf word &&& ~~~1#32 = 0x80#32 := by
  have checked := pointing_of_own own
  simp only [pointing, named, bne_self_eq_false, Bool.false_or, Bool.and_eq_true, beq_iff_eq]
    at checked
  rw [Entry.covers_iff, checked.1.2, checked.1.1] at covers
  have mask : ~~~slotMask [Slot.field Mode.arp 0 1] = ~~~1#32 := by decide
  rw [mask] at covers
  rw [codeOf, BitVec.and_assoc, BitVec.and_comm 0xFF, ← BitVec.and_assoc, covers]
  decide

theorem larp_covers {word : BitVec 32} (named : hit.2.name = "MAR") (covers : hit.2.covers word = true)
    (code : codeOf word &&& ~~~1#32 = 0x80#32) : larp.2.covers word = true := by
  have checked := pointing_of_own own
  simp only [pointing, named, bne_self_eq_false, Bool.false_or, Bool.and_eq_true, beq_iff_eq,
    Bool.or_eq_true] at checked
  have high : word &&& ~~~0xFF#32 = 0x6800#32 := by
    rw [Entry.covers_iff, checked.2.1] at covers
    rcases checked.2.2 with slots | slots <;> rw [slots] at covers <;> exact covers
  have split : word = 0x6800#32 ||| codeOf word := by
    rw [← high, codeOf, ← BitVec.and_or_distrib_left]
    have all : ~~~0xFF#32 ||| 0xFF = BitVec.allOnes 32 := by decide
    rw [all, BitVec.and_allOnes]
  rw [Entry.covers_iff]
  have mask : ~~~slotMask larp.2.slots = ~~~1#32 := by decide
  have code' : ~~~1#32 &&& codeOf word = 0x80#32 := by rw [BitVec.and_comm, code]
  rw [mask, split, BitVec.and_comm, BitVec.and_or_distrib_left, code']
  decide

end Pointing

/-- An indirect operand has one of three steps. -/
theorem step_of_parsed {scope : Scope} {c : Cursor} {op : Operand Mode Reg}
    (parsed : (parseOperand scope c).1 = op) (marked : op.mode = .ind) :
    op.value = 0 ∨ op.value = 1 ∨ op.value = 2 := by
  subst parsed
  unfold parseOperand at marked ⊢
  split at marked
  next after =>
    dsimp only at marked ⊢
    split <;> simp
  next =>
    exfalso
    split at marked
    · unfold registerNamed at marked
      split at marked <;> simp [Operand.failed] at marked
    · unfold Operand.parseValue at marked
      split at marked <;> simp [Operand.withValue, Operand.failed] at marked

/-- Only a pointer that is set without a step has the code. -/
theorem pointAt_code_iff {step : Int} {register : BitVec 32}
    (steps : step = 0 ∨ step = 1 ∨ step = 2) (single : register = 0#32 ∨ register = 1#32) :
    pointAt (indirectCode step) register &&& ~~~1#32 = 0x80#32 ↔ step = 0 := by
  rcases steps with rfl | rfl | rfl <;> rcases single with rfl | rfl <;> decide

theorem code_ne_of_codes {op : Operand Mode Reg} {word : BitVec 32} (codes : Codes op word) :
    codeOf word &&& ~~~1#32 ≠ 0x80#32 := by
  intro code
  unfold Codes at codes
  split at codes
  · rw [codes, indirectCode] at code
    split at code
    · exact absurd code (by decide)
    · split at code <;> exact absurd code (by decide)
  · have low : 0x80#32 &&& indirect = codeOf word &&& indirect &&& ~~~1#32 := by
      rw [← code, BitVec.and_assoc, BitVec.and_comm _ indirect, BitVec.and_assoc]
    rw [codes] at low
    exact absurd low (by decide)

theorem decodedName_of_ne {name : String} (other : name ≠ "MAR") (ops : List (Operand Mode Reg)) :
    decodedName name ops = name := by
  unfold decodedName
  split
  · rw [if_neg fun both => other both.1]
  · rfl

section Named

variable {hit first : Page Mode × Entry Mode} {ops : List (Operand Mode Reg)} {word : BitVec 32}
  {suffix : List UInt8} (own : hit ∈ machine.ownEntries)
  (found : machine.ownEntries.find? (machine.hits (Endian.big.put 2 word.toNat ++ suffix)) =
    some first)
  (covers : hit.2.covers word = true) (small : word.toNat < 0x10000)

include small in
theorem hits_put {other : Page Mode × Entry Mode} (own : other ∈ machine.ownEntries)
    (suffix : List UInt8) :
    machine.hits (Endian.big.put 2 word.toNat ++ suffix) other = other.2.covers word := by
  have number : BitVec.ofNat 32 (Endian.big.number (Endian.big.put 2 word.toNat)) = word := by
    rw [Endian.big.number_put_of_lt (by decide) small, BitVec.ofNat_toNat, BitVec.setWidth_eq]
  rw [hits_word own suffix rfl, number]

include own found covers small

/-- The register pointer is found for its code and nothing else. -/
theorem name_eq (mar : hit.2.name = "MAR") :
    first.2.name = if codeOf word &&& ~~~1#32 = 0x80#32 then "LARP" else "MAR" := by
  have member := List.mem_of_find?_eq_some found
  have matched := (hits_put small own suffix).trans covers
  have firstCovers := (hits_put small member suffix).symm.trans (List.find?_some found)
  by_cases code : codeOf word &&& ~~~1#32 = 0x80#32
  · rw [if_pos code]
    have present : larp ∈ machine.ownEntries := List.mem_of_getElem? (i := 22) rfl
    have larpHits := (hits_put small present suffix).trans
      (larp_covers own mar covers code)
    rcases eq_or_standsFor found present larpHits with rfl | stands
    · rfl
    · simp only [standsFor, Bool.and_eq_true, Bool.or_eq_true, beq_iff_eq] at stands
      exact stands.2.elim id fun both => both.1
  · rw [if_neg code, ← mar]
    exact name_of_found found own matched fun named => code (code_of_larp member named firstCovers)

/-- Without a fault the entry that is found has the name under which the instruction is decoded. -/
theorem decodedName_of_found (shows : Shows hit ops word)
    (parsed : ∀ op ∈ ops, ∃ scope c, (parseOperand scope c).1 = op) :
    first.2.name = decodedName hit.2.name ops := by
  by_cases mar : hit.2.name = "MAR"
  · have name := name_eq own found covers small mar
    have checked := pointing_of_own own
    simp only [pointing, mar, bne_self_eq_false, Bool.false_or, Bool.and_eq_true, beq_iff_eq,
      Bool.or_eq_true] at checked
    rcases checked.2.2 with alone | pointed
    · obtain ⟨memory, rfl, codes⟩ := shows.alone alone
      rw [name, if_neg (code_ne_of_codes codes)]
      exact mar.symm
    · obtain ⟨memory, next, register, rfl, marked, single, code⟩ := shows.pointed pointed
      obtain ⟨scope, c, text⟩ := parsed memory (by simp)
      rw [name, code]
      simp only [pointAt_code_iff (step_of_parsed text marked) single, decodedName, mar, marked,
        true_and]
  · rw [decodedName_of_ne mar]
    rcases eq_or_standsFor found own ((hits_put small own suffix).trans covers) with rfl | stands
    · rfl
    · simp only [standsFor, Bool.and_eq_true, Bool.or_eq_true, beq_iff_eq] at stands
      exact stands.2.resolve_right fun ⟨_, named⟩ => mar named

end Named

/-- A branch is complete with its target behind the word. -/
theorem exists_complete_branch {symbols : Symbols} {line : String} {address : UInt32} {name : String}
    {hit : Page Mode × Entry Mode} {ops : List (Operand Mode Reg)}
    (writes : machine.Writes symbols line address name hit ops)
    (slots : hit.2.slots = [.bare .pma]) :
    ∃ gap opcode payload, machine.Complete noBytes hit gap opcode payload ∧
      hit.2.covers opcode = true ∧ (machine.assemble symbols line address).bytes =
        machine.instruction hit.1 gap opcode payload := by
  have fits := entryFits_of_own writes.own
  have standing : ∀ slot ∈ hit.2.slots, ∀ op ∈ ops, machine.accepts slot.mode op.mode = true →
      ∀ room, ∃ piece cause, machine.Stands noBytes (fun _ _ _ _ => True) hit.2 slot op room piece
        cause := by
    intro slot inside op _ _ room
    refine Machine.exists_stands compact (Machine.fieldFits_of_entryFits fits inside) fun custom => ?_
    rw [slots, List.mem_singleton] at inside
    rw [inside] at custom
    exact absurd custom (by decide)
  obtain ⟨pieces, early, late, gap, opcode, payload, laid, coded, -, complete, assembled⟩ :=
    writes.exists_complete rfl fits standing
  exact ⟨gap, opcode, payload, complete, Machine.covers_of_pieces fits laid coded, by rw [assembled]⟩

/-- A branch shares its opcode with no other entry. -/
theorem leadsTo_branch {symbols : Symbols} {line : String} {address : UInt32} {name : String}
    {hit : Page Mode × Entry Mode} {ops : List (Operand Mode Reg)}
    (writes : machine.Writes symbols line address name hit ops) (suffix : List UInt8)
    (slots : hit.2.slots = [.bare .pma]) :
    machine.LeadsTo (machine.assemble symbols line address).bytes suffix address hit := by
  have own := writes.own
  obtain ⟨gap, opcode, payload, complete, covers, assembled⟩ := exists_complete_branch writes slots
  have matched : machine.hits (machine.instruction hit.1 gap opcode payload ++ suffix) hit = true := by
    rw [complete.hits_eq, covers, Machine.postHolds, (page_of_own own).2.2.2]
    rfl
  obtain ⟨first, found⟩ := Option.isSome_iff_exists.mp (List.find?_isSome.mpr ⟨hit, own, matched⟩)
  obtain rfl : first = hit := by
    refine (eq_or_standsFor found own matched).resolve_right fun stands => ?_
    simp [standsFor, slots, Slot.bare] at stands
  rw [assembled]
  refine complete.leadsTo unindexed customFollows (fun s inside => ?_) address found
  rw [slots, List.mem_singleton] at inside
  rw [inside]
  rfl

theorem exists_assembled_word {symbols : Symbols} {line : String} {address : UInt32} {name : String}
    {hit : Page Mode × Entry Mode} {ops : List (Operand Mode Reg)}
    (writes : machine.Writes symbols line address name hit ops)
    (inWord : ∀ s ∈ hit.2.slots, s.mode ≠ .pma) :
    ∃ word fault, machine.assemble symbols line address =
      ⟨address, Endian.big.put 2 word.toNat, fault⟩ ∧ Worded hit ops word fault := by
  cases full : isFull hit with
  | true => exact exists_word_full writes full
  | false => exact exists_word_plain writes inWord full

/-- What is assembled takes up whole words. -/
theorem whole_of_writes {symbols : Symbols} {line : String} {address : UInt32} {name : String}
    {hit : Page Mode × Entry Mode} {ops : List (Operand Mode Reg)}
    (writes : machine.Writes symbols line address name hit ops) :
    2 ∣ (machine.assemble symbols line address).bytes.length := by
  by_cases inWord : ∀ s ∈ hit.2.slots, s.mode ≠ .pma
  · obtain ⟨word, fault, assembled, -⟩ := exists_assembled_word writes inWord
    rw [assembled, Endian.length_put]
    decide
  · obtain ⟨s, member, branch⟩ : ∃ s ∈ hit.2.slots, s.mode = .pma := by simpa using inWord
    have slots := branch_of_own writes.own member branch
    obtain ⟨gap, opcode, payload, complete, -, assembled⟩ := exists_complete_branch writes slots
    obtain ⟨lead, gapless, cells, -⟩ := page_of_own writes.own
    have target : payload.length = 2 := by
      rw [complete.long, slots]
      simp [Machine.extent, Machine.inGap, Machine.span, machine, shape, Slot.bare, Width.bytes?]
    have empty : gap.length = 0 := by rw [complete.gapped, Machine.gapLength, gapless, Nat.zero_mul]
    have opcode : machine.opcodeLength hit.1 = 2 := by rw [Machine.opcodeLength, cells]; rfl
    rw [assembled, Machine.instruction]
    simp [lead, empty, target, opcode]

/-- Every line that gives bytes leads to an entry that takes them all. Without a fault this has the
name under which the instruction is decoded. -/
theorem exists_leadsTo {symbols : Symbols} {line : String} {address : UInt32} {name : String}
    {hit : Page Mode × Entry Mode} {ops : List (Operand Mode Reg)}
    (writes : machine.Writes symbols line address name hit ops) (suffix : List UInt8) :
    let a := machine.assemble symbols line address
    ∃ first ∈ machine.ownEntries, machine.LeadsTo a.bytes suffix address first ∧
      (a.fault = none → first.2.name = decodedName hit.2.name ops) := by
  have own := writes.own
  by_cases inWord : ∀ s ∈ hit.2.slots, s.mode ≠ .pma
  · obtain ⟨word, fault, assembled, worded⟩ := exists_assembled_word writes inWord
    have matched := (hits_put worded.small own suffix).trans worded.covers
    obtain ⟨first, found⟩ := Option.isSome_iff_exists.mp
      (List.find?_isSome.mpr ⟨hit, own, matched⟩)
    rw [assembled]
    refine ⟨first, List.mem_of_find?_eq_some found, ?_, fun clean => ?_⟩
    · exact leadsTo_of_word address worded.small
        (readable_of_found found own matched worded.covers worded.readable inWord) found
    · exact decodedName_of_found own found worded.covers worded.small (worded.shows clean) writes.parsed
  · obtain ⟨s, member, branch⟩ : ∃ s ∈ hit.2.slots, s.mode = .pma := by simpa using inWord
    have slots := branch_of_own own member branch
    refine ⟨hit, own, leadsTo_branch writes suffix slots, fun _ => (decodedName_of_ne ?_ ops).symm⟩
    intro mar
    have checked := pointing_of_own own
    simp [pointing, mar, slots, Slot.bare, mem, Slot.field] at checked

end CrossAsm.Tms32010

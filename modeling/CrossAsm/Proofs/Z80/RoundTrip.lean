import CrossAsm.Proofs.Z80.Restore
import CrossAsm.Target

/-! Decoding an instruction of the Z80 and assembling its text gives its bytes back. Only the loads
between HL and memory with a lead byte come back without it. -/

namespace CrossAsm.Z80

open Text

/-- The target of a jump by a distance before it is wrapped into the address space. -/
def branchTarget? (address : UInt32) : List UInt8 → Option Int
  | [opcode, disp] =>
    if isBranch opcode then some (address.toNat + 2 + signExtend disp.toNat 8) else none
  | _ => none

/-- A load between HL and memory that has a form without a lead byte. -/
def isLong : List UInt8 → Bool
  | lead :: opcode :: _ => lead == 0xED && (opcode == 0x63 || opcode == 0x6B)
  | _ => false

/-- The bytes without a lead byte if the instruction has such a form. -/
def shortForm : List UInt8 → List UInt8
  | lead :: opcode :: operand =>
    if isLong (lead :: opcode :: operand) then (if opcode == 0x63 then 0x22 else 0x2A) :: operand
    else lead :: opcode :: operand
  | bytes => bytes

section Course

variable {hit : Page Mode × Entry Mode} (own : hit ∈ machine.ownEntries) {rest : List UInt8}
  (hits : machine.hits rest hit = true) {address : UInt32}
  (clean : (machine.finish hit rest address).fault = none) (style : Style)

include own hits clean

/-- The target of a jump is read from the byte behind the opcode. -/
theorem course_branch
    (near : ∀ target, branchTarget? address (machine.finish hit rest address).bytes = some target →
      0 ≤ target ∧ target < 0x10000)
    {r : Reading machine hit.2} (member : r ∈ machine.course hit rest address)
    (present : r.slot ∈ hit.2.slots) (mode : r.slot.mode = .rel) :
    ∃ q, Restores r (machine.rendering ∅ style address) q := by
  obtain ⟨lead, gapless, slots, branches⟩ := branch_of_own own present mode
  obtain ⟨opcode, tail, -, covers, -, start⟩ := machine.exists_opcode hit rest address unindexed
    rfl gapless (opcodeCells_of_own own) hits
  have branch := branches opcode.toNat opcode.toNat_lt covers
  rw [UInt8.ofNat_toNat] at branch
  rw [lead, List.nil_append] at start
  -- A condition is read from the opcode alone.
  obtain ⟨begun, ended⟩ : r.start = (machine.indexed hit rest address).2 ∧
      machine.finish hit rest address = r.stop := by
    rcases slots with slots | slots
    · simp only [Machine.course, start, slots, List.map_cons, List.map_nil, Machine.readings,
        List.mem_singleton] at member
      subst member
      simp only [Machine.finish, Machine.course, start, slots, List.map_cons, List.map_nil,
        Machine.readings, Machine.stopOf, and_self]
    · simp only [Machine.finish, Machine.course, start, slots, List.map_cons, List.map_nil,
        Machine.readings, Machine.stopOf, List.mem_cons, List.not_mem_nil, or_false] at member clean ⊢
      rcases member with rfl | rfl
      · cases mode
      · have unchanged := (Machine.decodeOperand_follows customFollows _ _ _).fault clean
        exact ⟨Machine.stop_register rfl unchanged, rfl⟩
  rw [start] at begun
  rw [ended] at clean near
  obtain ⟨-, -, -, -, moved, -⟩ := Machine.exists_target_of_clean (congrArg shape mode) clean
  apply restores_branch style address mode clean (by rw [begun]; rfl)
  intro byte behind ahead
  have base : r.stop.base = address.toNat + 2 := by
    rw [moved, begun]
    rw [begun] at ahead
    obtain rfl : tail = byte :: behind := ahead
    simp [Decoding.base, Decoding.consumed, config, Cell.bytes, machine]
  rw [base]
  apply near
  rw [moved]
  rw [begun] at ahead ⊢
  obtain rfl : tail = byte :: behind := ahead
  change branchTarget? address [opcode, byte] = _
  simp only [branchTarget?, branch, if_true]

/-- Every operand of a decoded instruction is written so that it can be read back. -/
theorem exists_restores
    (near : ∀ target, branchTarget? address (machine.finish hit rest address).bytes = some target →
      0 ≤ target ∧ target < 0x10000)
    {r : Reading machine hit.2} (member : r ∈ machine.course hit rest address) :
    ∃ q, Restores r (machine.rendering ∅ style address) q := by
  obtain ⟨among, -, later⟩ := Machine.mem_readings customFollows member
  have stopped : r.stop.fault = none := later.fault clean
  have present : r.slot ∈ hit.2.slots := by
    rw [Machine.indexed, Machine.readIndexes_eq unindexed] at among
    obtain ⟨s, present, same⟩ := List.mem_map.mp among
    simp only [Prod.mk.injEq] at same
    exact same.1 ▸ present
  obtain ⟨category, width⟩ := slot_of_own own present
  cases mode : r.slot.mode with
  | reg8 | reg8M | pair | pairAf | pairIx | pairIy | cond | condJr =>
    exact restores_register style address (by rw [mode]; rfl) width stopped
  | a | hl | de | sp | af | i | r | ix | iy =>
    exact restores_named style address (by rw [mode]; rfl)
  | afP => exact restores_alternate style address mode
  | memHl | memBc | memDe | memSp | memC =>
    exact restores_pointer style address (by rw [mode]; rfl)
  | jpIx => exact restores_jump style address (.inl mode)
  | jpIy => exact restores_jump style address (.inr mode)
  | idxIx => exact restores_displaced style address (.inl mode) (by rw [width, mode]; rfl) stopped
  | idxIy => exact restores_displaced style address (.inr mode) (by rw [width, mode]; rfl) stopped
  | abs16 => exact restores_memory style address mode stopped
  | port => exact restores_port style address mode stopped
  | imm8 => exact restores_immediate style address (.inl ⟨mode, rfl⟩) stopped
  | imm16 => exact restores_immediate style address (.inr ⟨mode, rfl⟩) stopped
  | addr => exact restores_place style address mode stopped
  | rel => exact course_branch own hits clean style near member present mode
  | bit => exact restores_bit style address mode (by rw [width, mode]; rfl)
  | rst => exact restores_restart style address mode (by rw [width, mode]; rfl)
  | imMode => exact restores_interrupt style address mode (by rw [width, mode]; rfl) stopped
  | regA | regC | r8 | regI | regR | regBc | regDe | regHl | regSp | regAf | afAlt | regIx | regIy
  | cc | indHl | indBc | indDe | indSp | indC | indAbs | indIx | indIy | imm =>
    exact absurd (by rw [mode]; rfl) category

end Course

/-! ### Finding the entry again -/

section Restored

variable {hit : Page Mode × Entry Mode} {rest : List UInt8} {address : UInt32}
  {rendering : Rendering} {read : List (Operand Mode Reg)}

/-- The opcode is that of the entry with the fields that the operands were read from. -/
theorem opcode_of_hits (own : hit ∈ machine.ownEntries) (hits : machine.hits rest hit = true)
    (gapless : hit.1.gap = 0) (address : UInt32) : ∃ opcode tail, rest = hit.1.lead ++ opcode :: tail ∧
      hit.2.opcode ||| placeAll (hit.2.slots.map fun s =>
          (s, BitVec.ofNat 32 (s.read (machine.indexed hit rest address).2.opcode))) =
        BitVec.ofNat 32 opcode.toNat := by
  obtain ⟨opcode, tail, split, covers, -, start⟩ := machine.exists_opcode hit rest address unindexed
    rfl gapless (opcodeCells_of_own own) hits
  rw [start]
  exact ⟨opcode, tail, split, Entry.eq_placeAll_of_covers covers⟩

/-- Two operands and the readings they come from. -/
theorem exists_two {s t : Slot Mode} (slots : hit.2.slots = [s, t])
    (restores : List.Forall₂ (fun r q => Restores r rendering q) (machine.course hit rest address)
      read) :
    ∃ (r₁ r₂ : Reading machine hit.2) (q₁ q₂ : Operand Mode Reg), read = [q₁, q₂] ∧
      r₁.slot = s ∧ r₂.slot = t ∧ Restores r₁ rendering q₁ ∧ Restores r₂ rendering q₂ ∧
      r₁.start.opcode = (machine.indexed hit rest address).2.opcode ∧
      r₂.start.opcode = (machine.indexed hit rest address).2.opcode := by
  have own := machine.slots_course hit rest address
  have starts (r) (member : r ∈ machine.course hit rest address) :=
    (Machine.mem_readings customFollows member).2.1.opcode
  rw [slots] at own
  generalize machine.course hit rest address = course at own starts restores
  obtain ⟨r₁, r₂, rfl⟩ : ∃ r₁ r₂, course = [r₁, r₂] := by
    apply List.length_eq_two.mp
    have count := congrArg List.length own
    rwa [List.length_map] at count
  simp only [List.map_cons, List.map_nil, List.cons.injEq, and_true] at own
  cases restores with
  | @cons _ q₁ _ _ first others =>
    cases others with
    | @cons _ q₂ _ _ second others =>
      cases others
      exact ⟨r₁, r₂, q₁, q₂, rfl, own.1, own.2, first, second, starts r₁ (by simp),
        starts r₂ (by simp)⟩

theorem field_of_memory {entry : Entry Mode} {r : Reading machine entry} {q : Operand Mode Reg}
    (restored : Restores r rendering q) (slot : r.slot.mode = .reg8M) (mode : q.mode = .indHl) :
    r.slot.read r.start.opcode = 6 := by
  have field := restored.rewrites.echo.register (congrArg shape slot)
  change registerField r.slot.mode q = .ok (r.slot.read r.start.opcode) at field
  simp only [registerField, mode, if_true, Except.ok.injEq] at field
  exact field.symm

theorem byte_of_word {byte : UInt8} {n : Nat} (same : BitVec.ofNat 32 n = BitVec.ofNat 32 byte.toNat)
    (small : n < 256) : byte = UInt8.ofNat n := by
  have bound := byte.toNat_lt
  have equal := congrArg BitVec.toNat same
  rw [BitVec.toNat_ofNat, BitVec.toNat_ofNat, Nat.mod_eq_of_lt (by omega),
    Nat.mod_eq_of_lt (by omega)] at equal
  rw [equal, UInt8.ofNat_toNat]

/-- HALT, as an entry of the table. -/
def halt : Page Mode × Entry Mode := ({ entries := primary }, .of "HALT" 0x76 [])

theorem find?_halt (tail : List UInt8) :
    machine.ownEntries.find? (machine.hits (0x76 :: tail)) = some halt := by
  have own : halt ∈ machine.ownEntries := List.mem_of_getElem? (i := 12) rfl
  have hits : machine.hits (0x76 :: tail) halt = true :=
    @Machine.hits_append _ _ machine halt [] [0x76] tail rfl rfl
  exact find?_of_hits own hits fun _ => by simp [hides, halt, Entry.of]

/-- No load that is decoded is from and to memory at HL, since HALT comes first. -/
theorem not_halting (found : machine.ownEntries.find? (machine.hits rest) = some hit)
    (restores : List.Forall₂ (fun r q => Restores r rendering q) (machine.course hit rest address)
      read) :
    (hit.2.name == "LD" && read.length == 2 && read.all (·.mode == .indHl)) = false := by
  rw [Bool.eq_false_iff]
  intro halts
  simp only [Bool.and_eq_true, beq_iff_eq, List.all_eq_true] at halts
  obtain ⟨⟨name, count⟩, memory⟩ := halts
  have own := List.mem_of_find?_eq_some found
  have may : mayHalt hit = true := by
    simp only [mayHalt, name, beq_self_eq_true, Bool.true_and, List.all_eq_true]
    intro s member
    rw [← machine.slots_course hit rest address, List.mem_map] at member
    obtain ⟨r, present, rfl⟩ := member
    obtain ⟨q, written, restored⟩ := exists_right_of_forall₂ restores present
    have form := restored.form
    rw [memory q written] at form
    exact accepts_written form
  obtain ⟨lead, gapless, opcode, slots⟩ := halt_of_own own may
  obtain ⟨r₁, r₂, q₁, q₂, rfl, slot₁, slot₂, first, second, same₁, same₂⟩ := exists_two slots restores
  have field₁ := field_of_memory first (by rw [slot₁]; rfl) (memory q₁ (by simp))
  have field₂ := field_of_memory second (by rw [slot₂]; rfl) (memory q₂ (by simp))
  obtain ⟨byte, tail, rfl, coded⟩ := opcode_of_hits own (List.find?_some found) gapless address
  rw [slot₁, same₁] at field₁
  rw [slot₂, same₂] at field₂
  simp only [opcode, slots, List.map_cons, List.map_nil, field₁, field₂] at coded
  obtain rfl : byte = 0x76 := byte_of_word (n := 0x76) coded (by decide)
  rw [lead, List.nil_append, find?_halt] at found
  obtain rfl := Option.some.inj found
  exact absurd name (by decide)

theorem check_restored (found : machine.ownEntries.find? (machine.hits rest) = some hit)
    (restores : List.Forall₂ (fun r q => Restores r rendering q) (machine.course hit rest address)
      read) : check hit.2 read = none := by
  have own := List.mem_of_find?_eq_some found
  have jumps : (hit.2.slots.any (fun s => s.mode == .jpIx || s.mode == .jpIy) &&
      read.any (·.value != 0)) = false := by
    rw [Bool.eq_false_iff]
    intro both
    simp only [Bool.and_eq_true, List.any_eq_true, Bool.or_eq_true, beq_iff_eq, bne_iff_ne] at both
    obtain ⟨⟨s, member, jump⟩, q, written, nonzero⟩ := both
    have slots := jump_of_own own member jump
    obtain ⟨r, present, restored⟩ := exists_left_of_forall₂ restores written
    have slot : r.slot = s := by
      have among := List.mem_map_of_mem (f := (·.slot)) present
      rw [machine.slots_course, slots, List.mem_singleton] at among
      exact among
    have implied : shape r.slot.mode = .implied := by
      rw [slot]
      rcases jump with jump | jump <;> rw [jump] <;> rfl
    have value := restored.rewrites.echo.value _ (operand_implied implied)
    exact nonzero value
  simp only [check, not_halting found restores, jumps, Bool.or_self, Bool.false_eq_true, if_false]

/-- The name and the operands lead back to the entry unless a load has a shorter form. -/
theorem findByName_restored (own : hit ∈ machine.ownEntries) (hits : machine.hits rest hit = true)
    (restores : List.Forall₂ (fun r q => Restores r rendering q) (machine.course hit rest address)
      read) (ordinary : isLong rest = false) {name : String} (same : upper name = hit.2.name) :
    machine.findByName name read = .ok hit := by
  have forms : List.Forall₂ (fun slot op => op.mode ∈ written slot.mode) hit.2.slots read := by
    rw [← machine.slots_course hit rest address]
    exact List.forall₂_map_left_iff.mpr (restores.imp fun _ _ restored => restored.form)
  have admits := machine.admits_of_forall₂ (forms.imp fun _ _ form => accepts_written form)
  obtain ⟨first, -, found, named, admitted, order⟩ :=
    machine.findByName_eq_ok table_ordered own same admits
  rcases order with rfl | apart
  · exact found
  · have both := machine.mayAdmit_of_admits forms admitted
    have shadowed : shadows first hit = true := by
      rw [named, beq_self_eq_true, Bool.and_true] at apart
      simpa [show Machine.mayAdmit accepts written first.2.slots hit.2.slots = true from both]
        using apart
    simp only [shadows, Bool.or_eq_true, Bool.and_eq_true, beq_iff_eq] at shadowed
    have bare (n : BitVec 32) : (Slot.bare Mode.abs16).place n = 0 := Slot.place_of_width_zero rfl n
    rcases shadowed with ⟨short, ⟨⟨lead, gapless⟩, opcode⟩, slots⟩ |
      ⟨short, ⟨⟨lead, gapless⟩, opcode⟩, slots⟩
    · obtain ⟨r₁, r₂, q₁, q₂, rfl, -, slot, -, restored, -, same⟩ := exists_two slots restores
      have hl : q₂.mode = .regHl := by
        simp only [short, Machine.admits, Bool.and_eq_true] at admitted
        simpa [machine, accepts, Slot.bare] using admitted.2.1
      have field := restored.pair (by rw [slot]; rfl) hl
      obtain ⟨byte, tail, rfl, coded⟩ := opcode_of_hits own hits gapless address
      rw [slot, same] at field
      simp only [opcode, slots, List.map_cons, List.map_nil, placeAll, bare, field] at coded
      obtain rfl : byte = 0x63 := byte_of_word (n := 0x63) coded (by decide)
      simp [lead, isLong] at ordinary
    · obtain ⟨r₁, r₂, q₁, q₂, rfl, slot, -, restored, -, same, -⟩ := exists_two slots restores
      have hl : q₁.mode = .regHl := by
        simp only [short, Machine.admits, Bool.and_eq_true] at admitted
        simpa [machine, accepts, Slot.bare] using admitted.1
      have field := restored.pair (by rw [slot]; rfl) hl
      obtain ⟨byte, tail, rfl, coded⟩ := opcode_of_hits own hits gapless address
      rw [slot, same] at field
      simp only [opcode, slots, List.map_cons, List.map_nil, placeAll, bare, field] at coded
      obtain rfl : byte = 0x6B := byte_of_word (n := 0x6B) coded (by decide)
      simp [lead, isLong] at ordinary

end Restored

/-- What is decoded is assembled to the same bytes unless it is a load that has a shorter form. -/
theorem assemble_ordinary (style : Style) (r : Reader)
    (clean : (machine.decode ∅ style r).1.fault = none)
    (near : ∀ target, branchTarget? r.address (machine.decode ∅ style r).1.bytes = some target →
      0 ≤ target ∧ target < 0x10000) (ordinary : isLong r.rest = false) :
    machine.assemble ∅ (machine.decode ∅ style r).1.text r.address =
      ⟨r.address, (machine.decode ∅ style r).1.bytes, none⟩ := by
  obtain ⟨hit, found⟩ := Machine.exists_hit_of_decode clean
  have own := List.mem_of_find?_eq_some found
  have hits := List.find?_some found
  rw [Machine.decode_eq ∅ style found] at clean near
  exact Machine.assemble_decoded compact customFollows unindexed (fun _ => rfl) ∅ style
    (entryFits_of_own own) found clean (name_of_own own)
    (fun _ _ restored => restored.rewrites)
    (fun _ _ column restored => ⟨restored.rewrites.column column, restored.form, restored.pair⟩)
    (fun _ member => exists_restores own hits clean style near member)
    (fun _ restores _ same =>
      ⟨findByName_restored own hits restores ordinary same, check_restored found restores⟩)

/-! ### Loads between HL and memory -/

/-- The load between HL and memory, to memory or from it. -/
def shortLoad (store : Bool) : Page Mode × Entry Mode :=
  ({ entries := primary },
    if store then .of "LD" 0x22 [.bare .abs16, .bare .hl]
    else .of "LD" 0x2A [.bare .hl, .bare .abs16])

/-- The load between a register pair and memory, to memory or from it. -/
def longLoad (store : Bool) : Page Mode × Entry Mode :=
  ({ lead := [0xED], entries := extended },
    if store then .of "LD" 0x43 [.bare .abs16, .field .pair 4 2]
    else .of "LD" 0x4B [.field .pair 4 2, .bare .abs16])

def shortOpcode (store : Bool) : UInt8 := if store then 0x22 else 0x2A

def longOpcode (store : Bool) : UInt8 := if store then 0x63 else 0x6B

theorem find?_shortLoad (store : Bool) (tail : List UInt8) :
    machine.ownEntries.find? (machine.hits (shortOpcode store :: tail)) = some (shortLoad store) := by
  have own : shortLoad store ∈ machine.ownEntries := by
    cases store
    · exact List.mem_of_getElem? (i := 7) rfl
    · exact List.mem_of_getElem? (i := 6) rfl
  have hits : machine.hits (shortOpcode store :: tail) (shortLoad store) = true := by
    have matched := @Machine.hits_append _ _ machine (shortLoad store) [] [shortOpcode store] tail
      rfl rfl
    cases store <;> exact matched
  exact find?_of_hits own hits fun _ => by cases store <;> simp [hides, shortLoad, Entry.of]

theorem find?_longLoad (store : Bool) (tail : List UInt8) :
    machine.ownEntries.find? (machine.hits (0xED :: longOpcode store :: tail)) =
      some (longLoad store) := by
  have own : longLoad store ∈ machine.ownEntries := by
    cases store
    · exact List.mem_of_getElem? (i := 79) rfl
    · exact List.mem_of_getElem? (i := 78) rfl
  have hits : machine.hits (0xED :: longOpcode store :: tail) (longLoad store) = true := by
    have matched := @Machine.hits_append _ _ machine (longLoad store) [] [longOpcode store] tail
      rfl rfl
    cases store <;> exact matched
  exact find?_of_hits own hits fun _ => by cases store <;> simp [hides, longLoad, Entry.of]

/-- A load as it is decoded. -/
def loaded (rendering : Rendering) (store : Bool) (bytes : List UInt8) (low high : UInt8) : Decoded :=
  let memory := "(" ++ rendering.place (UInt32.ofInt (Endian.little.number [low, high])) ++ ")"
  { address := rendering.address
    bytes
    mnemonic := rendering.case "LD"
    operands := if store then [memory, rendering.case "HL"] else [rendering.case "HL", memory]
    fault := none }

theorem decodeOperand_address {entry : Entry Mode} {d : Decoding} (configured : d.config = config)
    {low high : UInt8} {tail : List UInt8} (ahead : d.rest = low :: high :: tail) :
    machine.decodeOperand entry (.bare .abs16) none d =
      (some
        { mode := .abs16
          value := Endian.little.number [low, high]
          column := d.bytes.length }, d.past 2) := by
  have read := @Machine.decodeOperand_number _ _ machine entry (.bare .abs16) none d .word 2
    (.inr rfl) rfl (by simp [ahead])
  rw [read, configured, ahead]
  rfl

/-- Decoding an instruction of two operands. -/
theorem decode_two (style : Style) {r : Reader} {hit : Page Mode × Entry Mode}
    (found : machine.ownEntries.find? (machine.hits r.rest) = some hit) {s t : Slot Mode}
    {d d₁ d₂ : Decoding} {op₁ op₂ : Operand Mode Reg}
    (start : machine.indexed hit r.rest r.address = ([(s, none), (t, none)], d))
    (first : machine.decodeOperand hit.2 s none d = (some op₁, d₁))
    (second : machine.decodeOperand hit.2 t none d₁ = (some op₂, d₂)) :
    (machine.decode ∅ style r).1 =
      { address := r.address
        bytes := d₂.bytes
        mnemonic := (machine.rendering ∅ style r.address).case hit.2.name
        operands := [op₁, op₂].map (formatOperand (machine.rendering ∅ style r.address))
        fault := d₂.fault } := by
  have slots := machine.decodeSlots_eq hit.2 [(s, none), (t, none)] d
  simp only [Machine.decodeSlots, first, second, Option.toList_some, List.singleton_append,
    Prod.mk.injEq] at slots
  simp only [Machine.decode_eq ∅ style found, Machine.finish, Machine.course, start, ← slots.1,
    ← slots.2]
  rfl

theorem decode_shortLoad (style : Style) (store : Bool) {r : Reader} {low high : UInt8}
    {tail : List UInt8} (rest : r.rest = shortOpcode store :: low :: high :: tail) :
    (machine.decode ∅ style r).1 =
      loaded (machine.rendering ∅ style r.address) store [shortOpcode store, low, high] low high := by
  have found := find?_shortLoad store (low :: high :: tail)
  rw [← rest] at found
  have start : machine.indexed (shortLoad store) r.rest r.address =
      ((shortLoad store).2.slots.map fun s => (s, none),
        ⟨config, r.address, BitVec.ofNat 32 (shortOpcode store).toNat, [], [shortOpcode store],
          low :: high :: tail, none⟩) := by
    rw [rest]
    cases store <;> rfl
  cases store
  · exact decode_two style found start rfl (decodeOperand_address rfl rfl)
  · exact decode_two style found start (decodeOperand_address rfl rfl) rfl

theorem decode_longLoad (style : Style) (store : Bool) {r : Reader} {low high : UInt8}
    {tail : List UInt8} (rest : r.rest = 0xED :: longOpcode store :: low :: high :: tail) :
    (machine.decode ∅ style r).1 =
      loaded (machine.rendering ∅ style r.address) store [0xED, longOpcode store, low, high]
        low high := by
  have found := find?_longLoad store (low :: high :: tail)
  rw [← rest] at found
  have start : machine.indexed (longLoad store) r.rest r.address =
      ((longLoad store).2.slots.map fun s => (s, none),
        ⟨config, r.address, BitVec.ofNat 32 (longOpcode store).toNat, [], [0xED, longOpcode store],
          low :: high :: tail, none⟩) := by
    rw [rest]
    cases store <;> rfl
  have pair (d : Decoding) (coded : d.opcode = BitVec.ofNat 32 (longOpcode store).toNat) :
      machine.decodeOperand (longLoad store).2 (.field .pair 4 2) none d =
        (some { mode := .regHl, reg := some .hl, column := 0 }, d) := by
    apply Machine.decodeOperand_register none rfl
    rw [coded]
    cases store <;> rfl
  cases store
  · exact decode_two style found start (pair _ rfl) (decodeOperand_address rfl rfl)
  · exact decode_two style found start (decodeOperand_address rfl rfl) (pair _ rfl)

/-- A load that is decoded without a fault has both bytes of its address. -/
theorem exists_address (style : Style) (store : Bool) {r : Reader} {tail : List UInt8}
    (rest : r.rest = 0xED :: longOpcode store :: tail)
    (clean : (machine.decode ∅ style r).1.fault = none) :
    ∃ low high more, tail = low :: high :: more := by
  have found := find?_longLoad store tail
  rw [← rest] at found
  simp only [Machine.decode_eq ∅ style found, rest] at clean
  match tail with
  | low :: high :: more => exact ⟨low, high, more, rfl⟩
  | [low] => cases store <;> exact nomatch clean
  | [] => cases store <;> exact nomatch clean

/-- A load between HL and memory comes back without its lead byte, and reads the same. -/
theorem assemble_long (style : Style) (store : Bool) {r : Reader} {tail : List UInt8}
    (rest : r.rest = 0xED :: longOpcode store :: tail)
    (clean : (machine.decode ∅ style r).1.fault = none) :
    machine.assemble ∅ (machine.decode ∅ style r).1.text r.address =
        ⟨r.address, shortForm (machine.decode ∅ style r).1.bytes, none⟩ ∧
      ∀ suffix,
        let memory : Memory := ⟨r.address, shortForm (machine.decode ∅ style r).1.bytes ++ suffix, .byte⟩
        let again := (machine.decode ∅ style memory.reader).1
        again.fault = none ∧ again.bytes = shortForm (machine.decode ∅ style r).1.bytes ∧
          again.text = (machine.decode ∅ style r).1.text := by
  obtain ⟨low, high, more, rfl⟩ := exists_address style store rest clean
  have short : shortForm [0xED, longOpcode store, low, high] = [shortOpcode store, low, high] := by
    cases store <;> rfl
  have again (suffix : List UInt8) :
      (machine.decode ∅ style
          (Memory.reader ⟨r.address, [shortOpcode store, low, high] ++ suffix, .byte⟩)).1 =
        loaded (machine.rendering ∅ style r.address) store [shortOpcode store, low, high] low high := by
    rw [decode_shortLoad style store rfl, Memory.address_reader]
  rw [decode_longLoad style store rest]
  have bytes : shortForm (loaded (machine.rendering ∅ style r.address) store
      [0xED, longOpcode store, low, high] low high).bytes = [shortOpcode store, low, high] := short
  rw [bytes]
  refine ⟨?_, fun suffix => ?_⟩
  · have ordinary := assemble_ordinary style
      (Memory.reader ⟨r.address, [shortOpcode store, low, high] ++ [], .byte⟩)
    rw [again, Memory.address_reader] at ordinary
    exact ordinary rfl (fun _ branch => nomatch branch) (by cases store <;> rfl)
  · simp only [again]
    exact ⟨rfl, rfl, rfl⟩

theorem decode_append (style : Style) (r : Reader)
    (clean : (machine.decode ∅ style r).1.fault = none) :
    ∃ tail, (machine.decode ∅ style r).1.bytes ++ tail = r.rest := by
  obtain ⟨hit, found⟩ := Machine.exists_hit_of_decode clean
  rw [Machine.decode_eq ∅ style found]
  exact ⟨_, machine.finish_append hit r.rest r.address customFollows⟩

theorem exists_longOpcode {bytes : List UInt8} (long : isLong bytes = true) :
    ∃ store tail, bytes = 0xED :: longOpcode store :: tail := by
  match bytes with
  | lead :: opcode :: tail =>
    simp only [isLong, Bool.and_eq_true, Bool.or_eq_true, beq_iff_eq] at long
    obtain ⟨rfl, rfl | rfl⟩ := long
    · exact ⟨true, tail, rfl⟩
    · exact ⟨false, tail, rfl⟩

theorem isLong_append {bytes : List UInt8} (long : isLong bytes = true) (tail : List UInt8) :
    isLong (bytes ++ tail) = true := by
  obtain ⟨store, more, rfl⟩ := exists_longOpcode long
  exact long

theorem shortForm_of_not_isLong {bytes : List UInt8} (ordinary : isLong bytes = false) :
    shortForm bytes = bytes := by
  match bytes with
  | [] => rfl
  | [_] => rfl
  | lead :: opcode :: tail => simp only [shortForm, ordinary, Bool.false_eq_true, if_false]

end CrossAsm.Z80

namespace CrossAsm.Target

/-- The Z80 assembles the text of what it decodes to the bytes it decoded. A load between HL and
memory with a lead byte comes back in its form without one, which reads the same. -/
theorem z80_assembles_decoded (style : Style) (r : Reader)
    (clean : (z80.decode ∅ style r).1.fault = none)
    (near : ∀ target, Z80.branchTarget? r.address (z80.decode ∅ style r).1.bytes = some target →
      0 ≤ target ∧ target < 0x10000) :
    z80.assemble ∅ (z80.decode ∅ style r).1.text r.address =
        ⟨r.address, Z80.shortForm (z80.decode ∅ style r).1.bytes, none⟩ ∧
      (Z80.isLong (z80.decode ∅ style r).1.bytes = true → ∀ suffix,
        let memory : Memory := ⟨r.address, Z80.shortForm (z80.decode ∅ style r).1.bytes ++ suffix, .byte⟩
        let again := (z80.decode ∅ style memory.reader).1
        again.fault = none ∧ again.bytes = Z80.shortForm (z80.decode ∅ style r).1.bytes ∧
          again.text = (z80.decode ∅ style r).1.text) := by
  cases long : Z80.isLong r.rest with
  | true =>
    obtain ⟨store, tail, rest⟩ := Z80.exists_longOpcode long
    obtain ⟨assembled, again⟩ := Z80.assemble_long style store rest clean
    exact ⟨assembled, fun _ => again⟩
  | false =>
    have ordinary : Z80.isLong (z80.decode ∅ style r).1.bytes = false := by
      rw [Bool.eq_false_iff]
      intro found
      obtain ⟨tail, rest⟩ := Z80.decode_append style r clean
      exact absurd (long.symm.trans (rest ▸ Z80.isLong_append found tail)) (by decide)
    rw [Z80.shortForm_of_not_isLong ordinary]
    refine ⟨Z80.assemble_ordinary style r clean near long, fun found => ?_⟩
    exact absurd (ordinary.symm.trans found) (by decide)

/-- A jump backwards as a distance, and a load that loses its lead byte, in lower case. -/
theorem z80_assembles_decoded_djnz :
    let style : Style := { relative := true, lowercase := true }
    let jump := (z80.decode ∅ style (Memory.reader ⟨0x1000, [0x10, 0x80], .byte⟩)).1
    let load := (z80.decode ∅ style (Memory.reader ⟨0x1000, [0xED, 0x6B, 0x34, 0x12], .byte⟩)).1
    Z80.shortForm jump.bytes = [0x10, 0x80] ∧ Z80.shortForm load.bytes = [0x2A, 0x34, 0x12] ∧
      z80.assemble ∅ jump.text 0x1000 = ⟨0x1000, Z80.shortForm jump.bytes, none⟩ ∧
      z80.assemble ∅ load.text 0x1000 = ⟨0x1000, Z80.shortForm load.bytes, none⟩ := by
  refine ⟨by decide, by decide, ?_, ?_⟩
  · have inside : Z80.branchTarget? 0x1000 (z80.decode ∅ { relative := true, lowercase := true }
        (Memory.reader ⟨0x1000, [0x10, 0x80], .byte⟩)).1.bytes = some 0xF82 := by decide
    exact (z80_assembles_decoded { relative := true, lowercase := true }
      (Memory.reader ⟨0x1000, [0x10, 0x80], .byte⟩) (by decide)
      fun target found => by
        obtain rfl := Option.some.inj (inside.symm.trans found)
        decide).1
  · have free : Z80.branchTarget? 0x1000 (z80.decode ∅ { relative := true, lowercase := true }
        (Memory.reader ⟨0x1000, [0xED, 0x6B, 0x34, 0x12], .byte⟩)).1.bytes = none := by decide
    exact (z80_assembles_decoded { relative := true, lowercase := true }
      (Memory.reader ⟨0x1000, [0xED, 0x6B, 0x34, 0x12], .byte⟩) (by decide)
      fun target found => by
        have both := free.symm.trans found
        simp at both).1

end CrossAsm.Target

import CrossAsm.Proofs.Completeness
import CrossAsm.Proofs.Locality
import CrossAsm.Proofs.Ns32000.RoundTrip

/-! How far ahead the targets look. Where several entries match one memory, they have the same bytes
up to the opcode, and only bit instructions of the 6800 family look further, at a mask that belongs
to the instruction. So what follows an instruction has no part in how it is decoded. -/

namespace CrossAsm

namespace M6800

variable {variant : Variant} {hit : Page Mode × Entry Mode}

theorem customLocal (variant : Variant) : (machine variant).CustomLocal := by
  intro entry slot index d
  exact ((Decoding.read_local 1 d).map (fun mask _ => some
    { mode := slot.mode
      value := lowestBit (if slot.mode = .bitClr then 0xFF - mask else mask)
      column := d.bytes.length }) fun _ _ _ => rfl).congr fun _ => rfl

set_option maxRecDepth 20000 in
/-- Entries that share an opcode with an entry that has a condition have operands. -/
theorem table_conditional : (table.filter (·.2.post.isSome)).all (fun other =>
    table.all fun hit => other.2.opcode != hit.2.opcode || !hit.2.slots.isEmpty) = true := by
  decide

/-- Every operand has a byte at least. -/
theorem lt_length_of_clean (own : hit ∈ (machine variant).ownEntries) {s : Slot Mode}
    (member : s ∈ hit.2.slots) {d : Decoding} (gapless : d.gapBytes = [])
    (clean : ((machine variant).decodeOperand hit.2 s none d).2.fault = none) :
    d.bytes.length < ((machine variant).decodeOperand hit.2 s none d).2.bytes.length := by
  obtain ⟨spoken, bare⟩ := slot_of_own own member
  obtain ⟨n, positive, same⟩ : ∃ n, 0 < n ∧
      ((machine variant).decodeOperand hit.2 s none d).2 = (Decoding.take n d).2 := by
    cases mode : s.mode with
    | imm8 | direct | rel | bitClr | bitSet =>
      refine ⟨1, Nat.one_pos, ?_⟩
      simp only [Machine.decodeOperand, machine, shape, mode, Width.bytes?]
      rfl
    | imm16 | extended =>
      refine ⟨2, Nat.two_pos, ?_⟩
      simp only [Machine.decodeOperand, machine, shape, mode, Width.bytes?]
      rfl
    | indexed =>
      refine ⟨1, Nat.one_pos, ?_⟩
      have shaped : (machine variant).shape s.mode = .indexed .byte false := by
        rw [mode]
        rfl
      rw [Machine.decodeOperand_indexed none shaped bare,
        Decoding.readDisp_rest (by simp [gapless])]
      rfl
    | imm | dir | ext | idx => simp [mode, written] at spoken
  rw [same] at clean ⊢
  have enough := Decoding.enough_of_take clean
  rw [d.take_eq enough, Decoding.past_bytes, List.length_append, List.length_take_of_le enough]
  omega

theorem exists_opcode_of_hits (own : hit ∈ (machine variant).ownEntries) {rest : List UInt8}
    (hits : (machine variant).hits rest hit = true) (address : UInt32) : ∃ opcode tail,
      rest = opcode :: tail ∧ hit.2.opcode = BitVec.ofNat 32 opcode.toNat ∧
      (machine variant).indexed hit rest address = (hit.2.slots.map fun s => (s, none),
        ⟨config, address, BitVec.ofNat 32 opcode.toNat, [], [opcode], tail, none⟩) := by
  obtain ⟨lead, gap, cells⟩ := page_of_own own
  obtain ⟨opcode, tail, split, covers, -, indexed⟩ :=
    (machine variant).exists_opcode hit rest address (unindexed variant) rfl gap cells hits
  rw [lead] at split indexed
  exact ⟨opcode, tail, split, ((covers_iff_opcode own _).mp covers).symm, indexed⟩

/-- An instruction with operands is longer than its opcode. -/
theorem two_le_finish (own : hit ∈ (machine variant).ownEntries) (operands : hit.2.slots ≠ [])
    {rest : List UInt8} {address : UInt32} (hits : (machine variant).hits rest hit = true)
    (clean : ((machine variant).finish hit rest address).fault = none) :
    2 ≤ ((machine variant).finish hit rest address).bytes.length := by
  obtain ⟨s, more, slots⟩ := List.exists_cons_of_ne_nil operands
  obtain ⟨opcode, tail, -, -, indexed⟩ := exists_opcode_of_hits own hits address
  -- the first operand is read right behind the opcode
  let first : Reading (machine variant) hit.2 :=
    ⟨s, none, ⟨config, address, BitVec.ofNat 32 opcode.toNat, [], [opcode], tail, none⟩⟩
  have member : first ∈ (machine variant).course hit rest address := by
    rw [Machine.course, indexed, slots]
    exact List.mem_cons_self
  obtain ⟨-, -, behind⟩ := Machine.mem_readings (customFollows variant) member
  have longer : first.start.bytes.length < first.stop.bytes.length :=
    lt_length_of_clean own (by simp [first, slots]) rfl (behind.fault clean)
  exact Nat.le_trans longer behind.grows.length_le

/-- Only bit instructions look at the byte behind the opcode, which is the mask of each instruction
that shares the opcode. -/
theorem sighted (variant : Variant) : (machine variant).Sighted := by
  intro hit own other among memory hits hitsOther rest address found clean
  have head {e : Page Mode × Entry Mode} (own : e ∈ (machine variant).ownEntries) :
      (machine variant).headLength e.1 = 1 := by
    obtain ⟨lead, gap, cells⟩ := page_of_own own
    rw [Machine.headLength, lead, gap, cells]
    rfl
  cases condition : other.2.post with
  | none =>
    rw [Machine.reach_of_unconditional condition, head among, ← head own]
    exact Machine.headLength_le_finish (customFollows variant) found
  | some post =>
    -- what is looked at is an operand of every instruction with this opcode
    have long : (machine variant).reach other = 2 := by
      rw [Machine.reach, head among, condition]
      rfl
    obtain ⟨opcode, tail, rfl, code, -⟩ := exists_opcode_of_hits own hits address
    obtain ⟨_, _, split, codeOther, -⟩ := exists_opcode_of_hits among hitsOther address
    obtain ⟨rfl, rfl⟩ := List.cons.inj split
    have operands : hit.2.slots ≠ [] := by
      have listed : other ∈ table.filter (·.2.post.isSome) := by
        refine List.mem_filter.mpr ⟨((machine variant).mem_ownEntries.mp among).1, ?_⟩
        rw [condition]
        rfl
      have each := List.all_eq_true.mp (List.all_eq_true.mp table_conditional other listed) hit
        ((machine variant).mem_ownEntries.mp own).1
      simpa [code, codeOther] using each
    rw [long]
    exact two_le_finish own operands found clean

end M6800

namespace Z80

theorem customLocal : machine.CustomLocal := by
  intro entry slot index d
  refine .unread (customFollows entry slot index d) ?_
  simp only [machine, decodeCustom, Decoding.onto_opcode]
  split
  · exact ⟨_, none, fun _ => rfl⟩
  · split
    · exact ⟨_, none, fun _ => rfl⟩
    · exact ⟨_, some _, fun _ => rfl⟩
    · exact ⟨_, none, fun _ => rfl⟩

/-- Entries that match one memory have the same bytes in front of the opcode. -/
theorem headLength_eq_of_hits {first hit : Page Mode × Entry Mode} {memory : List UInt8}
    (own : hit ∈ machine.ownEntries) (hits : machine.hits memory hit = true)
    (found : machine.ownEntries.find? (machine.hits memory) = some first) :
    machine.headLength first.1 = machine.headLength hit.1 := by
  rcases eq_or_unwritable own found hits with rfl | ⟨lead, gap, -⟩
  · rfl
  · rw [Machine.headLength, Machine.headLength, lead, gap, opcodeCells_of_own own,
      opcodeCells_of_own (List.mem_of_find?_eq_some found)]

theorem sighted : machine.Sighted := by
  intro hit own other among memory hits hitsOther rest address found clean
  -- both begin as the entry that is found does
  obtain ⟨first, -, search, -⟩ := exists_first own hits
  rw [Machine.reach_of_unconditional (sound_and_plain_of_own among).2,
    ← headLength_eq_of_hits among hitsOther search, headLength_eq_of_hits own hits search]
  exact Machine.headLength_le_finish customFollows found

end Z80

namespace Tms32010

theorem customLocal : machine.CustomLocal := by
  intro entry slot index d
  refine .unread (customFollows entry slot index d) ?_
  simp only [machine, decodeCustom, Decoding.onto_opcode]
  split
  · by_cases named : d.opcode &&& 0xFF &&& indirect ≠ 0 ∧ d.opcode &&& 0xFF &&& keepPointer = 0
    · exact ⟨_, none, fun _ => if_pos named⟩
    · exact ⟨_, none, fun _ => if_neg named⟩
  · by_cases allowed : storeShift (slot.read d.opcode) = true
    · exact ⟨_, none, fun _ => if_pos allowed⟩
    · exact ⟨_, some _, fun _ => if_neg allowed⟩
  · by_cases direct : d.opcode &&& 0xFF &&& indirect = 0
    · exact ⟨_, none, fun _ => if_pos direct⟩
    · simp only [direct, if_false]
      split
      · exact ⟨_, none, fun _ => rfl⟩
      · exact ⟨_, some _, fun _ => rfl⟩

theorem sighted : machine.Sighted := by
  intro hit own other among memory hits hitsOther rest address found clean
  obtain ⟨lead, gap, cells, -⟩ := page_of_own own
  obtain ⟨leadOther, gapOther, cellsOther, free⟩ := page_of_own among
  have same : machine.headLength other.1 = machine.headLength hit.1 := by
    rw [Machine.headLength, Machine.headLength, lead, gap, cells, leadOther, gapOther, cellsOther]
  rw [Machine.reach_of_unconditional free, same]
  exact Machine.headLength_le_finish customFollows found

end Tms32010

namespace Ns32000

theorem decodeDisp_local (op : Operand Mode Reg) (d : Decoding) :
    Decoding.Local (decodeDisp op) d :=
  d.readLadder_local.map (fun v _ => some { op with value := v }) fun _ _ _ => rfl

theorem decodeBase_local (entry : Entry Mode) (mode : Mode) (gen : Nat) (indexed : Bool)
    (d : Decoding) : Decoding.Local (decodeBase entry mode gen indexed) d := by
  -- the field says how an operand is read, and the state only where it begins
  let column := d.bytes.length
  unfold decodeBase
  dsimp only
  split
  · exact .unread (.refl d)
      ⟨some { mode := .reg, reg := general[gen]?, column }, none, fun _ => rfl⟩
  split
  · exact (decodeDisp_local { mode := .regRel, reg := general[gen - 8]?, column } d).congr
      fun _ => rfl
  split
  · split
    · exact .faulty (.fail d _) (d.fail_fault_ne_none _)
    next n _ =>
      exact ((Decoding.readIn_local .big n d).map
        (fun v _ => some { mode := .imm, value := v, column }) fun _ _ _ => rfl).congr fun _ => rfl
  split
  · exact (decodeDisp_local { mode := .abs, column } d).congr fun _ => rfl
  split
  · exact .unread (.refl d) ⟨some { mode := .tos, column }, none, fun _ => rfl⟩
  split
  · exact (d.readLadder_local.map (fun v d => some { mode := .pcrel, value := d.target v, column })
      fun _ _ _ => rfl).congr fun _ => rfl
  split
  · exact (decodeDisp_local { mode := .space, reg := spaces[gen - genSpace]?, column } d).congr
      fun _ => rfl
  · exact .faulty (.fail d _) (d.fail_fault_ne_none _)

theorem decodeGen_local (entry : Entry Mode) (slot : Slot Mode) (index : Option UInt8)
    (d : Decoding) : Decoding.Local (decodeGen entry slot index) d := by
  let gen := (index.map fun b => b.toNat / 8).getD (slot.read d.opcode)
  obtain ⟨scaled, scales, -, -⟩ := exists_scales (slot.read d.opcode) index
  cases allowed : refuses slot.mode gen with
  | true =>
    have here : decodeGen entry slot index d = (none, d.fail .operandNotAllowed) := if_pos allowed
    refine .faulty ?_ ?_
    · rw [here]
      exact .fail d .operandNotAllowed
    · rw [here]
      exact d.fail_fault_ne_none _
  | false =>
    exact ((decodeBase_local entry slot.mode gen index.isSome d).map
      (fun op _ => op.map fun back => indexing back scaled) fun _ _ _ => rfl).congr
      fun rest => decodeGen_eq (d := d.onto rest) rfl allowed scales

theorem customLocal : machine.CustomLocal := by
  intro entry slot index d
  change Decoding.Local (decodeCustom entry slot index) d
  unfold decodeCustom
  dsimp only
  split
  · exact ((Decoding.read_local 1 d).map (fun v _ => some
      { mode := .regList, list := BitVec.ofNat 8 v, column := d.bytes.length })
      fun _ _ _ => rfl).congr fun _ => rfl
  · exact ((Decoding.read_local 1 d).map (fun v _ => some
      { mode := .regList, list := (BitVec.ofNat 8 v).reverse, column := d.bytes.length })
      fun _ _ _ => rfl).congr fun _ => rfl
  · exact decodeGen_local entry slot index d

theorem sighted : machine.Sighted := by
  intro hit own other among memory hits hitsOther rest address found clean
  -- no two entries match one memory
  obtain rfl : hit = other :=
    Option.some.inj ((find?_of_hits own hits).symm.trans (find?_of_hits among hitsOther))
  rw [Machine.reach_of_unconditional (page_of_own own).2.2]
  exact Machine.headLength_le_finish customFollows found

end Ns32000

namespace Target

theorem customLocal : (t : Target) → t.machine.CustomLocal
  | mc6800 => M6800.customLocal .mc6800
  | mc6801 => M6800.customLocal .mc6801
  | hd6301 => M6800.customLocal .hd6301
  | z80 => Z80.customLocal
  | ns32000 => Ns32000.customLocal
  | tms32010 => Tms32010.customLocal

theorem sighted : (t : Target) → t.machine.Sighted
  | mc6800 => M6800.sighted .mc6800
  | mc6801 => M6800.sighted .mc6801
  | hd6301 => M6800.sighted .hd6301
  | z80 => Z80.sighted
  | ns32000 => Ns32000.sighted
  | tms32010 => Tms32010.sighted

/-- What a target decodes without a fault depends on the bytes that it reports and on nothing behind
them. Another reader at the same address that has these bytes ahead, with anything or nothing to
follow, decodes to the same record; and both readers move on by the length of these bytes. -/
theorem decode_eq_of_prefix (t : Target) (symbols : Symbols) (style : Style) (r s : Reader)
    (place : s.address = r.address) (clean : (t.decode symbols style r).1.fault = none)
    (ahead : (t.decode symbols style r).1.bytes <+: s.rest) :
    let first := t.decode symbols style r
    let second := t.decode symbols style s
    let size := first.1.bytes.length
    second.1 = first.1 ∧
      first.2 = { r with offset := r.offset + size, rest := r.rest.drop size } ∧
      second.2 = { s with offset := s.offset + size, rest := s.rest.drop size } := by
  intro first second size
  have same : second.1 = first.1 :=
    Machine.decode_of_prefix t.customLocal t.sighted symbols style place clean ahead
  have again : second.1.fault = none := by rw [same, clean]
  -- the second reader has no fault either, so it moves by what it reports, which is the same
  refine ⟨same, Machine.decode_moves t.customFollows symbols style clean, ?_⟩
  have moved := Machine.decode_moves t.customFollows symbols style again
  rwa [show (t.machine.decode symbols style s).1 = first.1 from same] at moved

/-- A bit instruction, which looks at its mask, in front of another instruction and at the end of a
memory that begins elsewhere. -/
theorem decode_eq_of_prefix_mask :
    let r := Memory.reader ⟨0x8000, [0x71, 0xFE, 0x10, 0x39], .byte⟩
    let s := Memory.seek ⟨0x7FFE, [0x01, 0x01, 0x71, 0xFE, 0x10], .byte⟩ 2
    let first := hd6301.decode ∅ {} r
    let second := hd6301.decode ∅ {} s
    (first.1.text = "BCLR 0,$10" ∧ first.1.fault = none ∧ first.1.bytes = [0x71, 0xFE, 0x10]) ∧
      second.1 = first.1 ∧ first.2.offset = 3 ∧ second.2.offset = 5 ∧ second.2.rest = [] := by
  intro r s first second
  have place : s.address = r.address := by decide
  have known : first.1.text = "BCLR 0,$10" ∧ first.1.fault = none ∧
      first.1.bytes = [0x71, 0xFE, 0x10] := by decide
  have ahead : first.1.bytes <+: s.rest := by
    rw [known.2.2]
    decide
  obtain ⟨same, moved, movedSecond⟩ := decode_eq_of_prefix hd6301 ∅ {} r s place known.2.1 ahead
  refine ⟨known, same, ?_, ?_, ?_⟩
  · rw [show first.2 = _ from moved, known.2.2]
    rfl
  · rw [show second.2 = _ from movedSecond, known.2.2]
    rfl
  · rw [show second.2 = _ from movedSecond, known.2.2]
    rfl

end Target

end CrossAsm

import CrossAsm.Proofs.Recovery

/-! Instructions with index bytes. These stand right behind the opcode, in front of everything else
that the operands add to it. Where each operand announces its index byte in its field and is read back
from its own bytes, the whole instruction is. -/

namespace CrossAsm

variable {Mode Reg : Type} {m : Machine Mode Reg} {entry : Entry Mode} {base : Int}
  {Q : Slot Mode → Operand Mode Reg → Operand Mode Reg → Prop}

namespace Machine

/-- The operand becomes a piece that is read back from its bytes, with displacements measured from
`base`. What comes back is as asked. -/
structure Returns (m : Machine Mode Reg) (base : Int)
    (Q : Slot Mode → Operand Mode Reg → Operand Mode Reg → Prop) (entry : Entry Mode)
    (slot : Slot Mode) (op : Operand Mode Reg) (room : Nat) (piece : Piece) (cause : Option Cause) :
    Prop where
  lays : m.Lays entry slot op room piece cause
  gapless : ∀ e ∈ piece.extensions, e.stage ≠ .gap
  index : ∃ index : Option UInt8, piece.bytes m.config base .index = index.toList ∧
    m.hasIndexByte slot.mode (piece.field.toNat % twoPow slot.width) = index.isSome
  reads : ∀ (d : Decoding) (more : List UInt8), d.config = m.config →
    slot.read d.opcode = piece.field.toNat % twoPow slot.width →
    d.rest = piece.bytes m.config base .payload ++ more →
    ∃ back, m.decodeOperand entry slot (piece.bytes m.config base .index).head? d =
        (some back, d.past (piece.bytes m.config base .payload).length) ∧
      (d.base = base → Q slot op back)

theorem Returns.imp {R : Slot Mode → Operand Mode Reg → Operand Mode Reg → Prop}
    {slot : Slot Mode} {op : Operand Mode Reg} {room : Nat} {piece : Piece} {cause : Option Cause}
    (returns : m.Returns base Q entry slot op room piece cause)
    (weaker : ∀ back, Q slot op back → R slot op back) :
    m.Returns base R entry slot op room piece cause where
  lays := returns.lays
  gapless := returns.gapless
  index := returns.index
  reads d more same field ahead := by
    obtain ⟨back, decoded, related⟩ := returns.reads d more same field ahead
    exact ⟨back, decoded, fun measured => weaker back (related measured)⟩

theorem bytes_gap_of_gapless {piece : Piece} (gapless : ∀ e ∈ piece.extensions, e.stage ≠ .gap)
    (config : Config) (base : Int) : piece.bytes config base .gap = [] := by
  rw [Piece.bytes, Extension.stageOf, List.flatMap_eq_nil_iff]
  intro e member
  rw [if_neg (gapless e member)]

section Run

variable {slots : List (Slot Mode)} {ops : List (Operand Mode Reg)} {room : Nat}
  {pieces : List (Slot Mode × Piece)} {fault : Option Fault}
  (returns : Pieces (m.Returns base Q entry) slots ops room pieces fault)

include returns

theorem gap_of_returns : pieces.flatMap (·.2.bytes m.config base .gap) = [] :=
  List.flatMap_eq_nil_iff.mpr
    (returns.forall_mem fun _ _ _ _ _ returns => bytes_gap_of_gapless returns.gapless _ _)

theorem readIndexes_of_returns {d : Decoding} {more : List UInt8}
    (fields : ∀ p ∈ pieces, p.1.read d.opcode = p.2.field.toNat % twoPow p.1.width)
    (ahead : d.rest = pieces.flatMap (·.2.bytes m.config base .index) ++ more) :
    m.readIndexes slots d =
      (pieces.map fun p => (p.1, (p.2.bytes m.config base .index).head?),
        d.past (pieces.flatMap (·.2.bytes m.config base .index)).length) := by
  induction returns generalizing d with
  | nil => simp [readIndexes]
  | @cons slot op room piece cause slots ops pieces later first rest ih =>
    obtain ⟨index, bytes, announced⟩ := first.index
    rw [List.flatMap_cons, bytes] at ahead
    rw [← fields (slot, piece) (by simp)] at announced
    have others (p : Slot Mode × Piece) (member : p ∈ pieces) :
        p.1.read d.opcode = p.2.field.toNat % twoPow p.1.width := fields p (by simp [member])
    cases index with
    | none =>
      have rest := ih others (by simpa using ahead)
      simp only [Option.isSome_none] at announced
      simp [readIndexes, announced, rest, bytes]
    | some b =>
      have byte := Decoding.byte_cons (d := d) (by simpa using ahead)
      have rest := @ih (d.past 1) others (by simp [ahead])
      simp only [Option.isSome_some] at announced
      simp [readIndexes, announced, byte, rest, bytes, Decoding.past_past, Nat.add_comm]

theorem readings_of_returns {d : Decoding} {more : List UInt8} (config : d.config = m.config)
    (fields : ∀ p ∈ pieces, p.1.read d.opcode = p.2.field.toNat % twoPow p.1.width)
    (ahead : d.rest = pieces.flatMap (·.2.bytes m.config base .payload) ++ more) :
    let readings := m.readings entry
      (pieces.map fun p => (p.1, (p.2.bytes m.config base .index).head?)) d
    m.stopOf entry readings d =
        d.past (pieces.flatMap (·.2.bytes m.config base .payload)).length ∧
      (m.config.origin = .start → d.base = base →
        List.Forall₂ (fun (written : Slot Mode × Operand Mode Reg) r => ∃ back, r.operand = some back ∧
          Q written.1 written.2 back) (slots.zip ops) readings) := by
  induction returns generalizing d with
  | nil => simp [readings, stopOf]
  | @cons slot op room piece cause slots ops pieces later first rest ih =>
    rw [List.flatMap_cons, List.append_assoc] at ahead
    obtain ⟨back, decoded, recovered⟩ := first.reads d _ config (fields (slot, piece) (by simp)) ahead
    obtain ⟨stop, others⟩ := @ih (d.past (piece.bytes m.config base .payload).length) config
      (fun p member => fields p (by simp [member])) (by simp [ahead])
    simp only [List.map_cons, readings, stopOf, Reading.stop, decoded]
    refine ⟨by rw [stop, Decoding.past_past, List.flatMap_cons, List.length_append], ?_⟩
    intro start measured
    refine .cons ⟨back, by rw [Reading.operand, decoded], recovered measured⟩ (others start ?_)
    -- Measured from its start, an instruction has one base throughout.
    rw [← measured]
    simp [Decoding.base, config, start]

end Run

section Whole

variable {hit : Page Mode × Entry Mode} {ops : List (Operand Mode Reg)} {room : Nat}
  {pieces : List (Slot Mode × Piece)} {fault : Option Fault}
  (returns : Pieces (m.Returns base Q hit.2) hit.2.slots ops room pieces fault)
  (suffix : List UInt8)

include returns

/-- The parts that an instruction is found in. -/
theorem layout_of_returns : m.layout hit.1 hit.2 pieces base ++ suffix = hit.1.lead ++ [] ++
    m.config.endian.put (m.opcodeLength hit.1)
      (hit.2.opcode ||| placeAll (pieces.map fun p => (p.1, p.2.field))).toNat ++
    (pieces.flatMap (·.2.bytes m.config base .index) ++
      (pieces.flatMap (·.2.bytes m.config base .payload) ++ suffix)) := by
  rw [layout, gap_of_returns returns]
  simp [opcodeLength, List.append_assoc]

/-- An instruction matches its entry and is read to its end. -/
theorem finish_of_returns (fits : m.entryFits hit = true) (gapless : hit.1.gap = 0)
    (plain : hit.2.post = none) (custom : m.CustomFollows) (address : UInt32) :
    let bytes := m.layout hit.1 hit.2 pieces base
    m.hits (bytes ++ suffix) hit = true ∧
      (m.finish hit (bytes ++ suffix) address).fault = none ∧
      (m.finish hit (bytes ++ suffix) address).bytes = bytes ∧
      (m.config.origin = .start → base = address.toNat →
        List.Forall₂ (fun (written : Slot Mode × Operand Mode Reg) r => ∃ back, r.operand = some back ∧
          Q written.1 written.2 back) (hit.2.slots.zip ops)
          (m.course hit (bytes ++ suffix) address)) := by
  intro bytes
  let opcode := hit.2.opcode ||| placeAll (pieces.map fun p => (p.1, p.2.field))
  let index := pieces.flatMap (·.2.bytes m.config base .index)
  let payload := pieces.flatMap (·.2.bytes m.config base .payload)
  have short := opcodeLength_le_of_entryFits fits
  have small : opcode.toNat < twoPow (8 * m.opcodeLength hit.1) := by
    apply Entry.opcode_placeAll_lt (fieldsApart_of_entryFits fits)
    rw [List.map_map]
    exact returns.slots_eq
  have number : BitVec.ofNat 32 (m.config.endian.number
      (m.config.endian.put (m.opcodeLength hit.1) opcode.toNat)) = opcode := by
    rw [m.config.endian.number_put_of_lt short small, BitVec.ofNat_toNat, BitVec.setWidth_eq]
  have split : bytes ++ suffix = _ := layout_of_returns returns suffix
  have empty : ([] : List UInt8).length = m.gapLength hit.1 := by simp [gapLength, gapless]
  have coded : (m.config.endian.put (m.opcodeLength hit.1) opcode.toNat).length =
      m.opcodeLength hit.1 := by rw [Endian.length_put, Nat.min_eq_left short]
  have hits := m.hits_append hit (index ++ (payload ++ suffix)) empty coded
  rw [number, covers_of_pieces fits returns rfl, postHolds, plain, ← split] at hits
  have start := m.decoding_append hit address (index ++ (payload ++ suffix)) empty coded
  rw [number, ← split] at start
  have fields (p : Slot Mode × Piece) (member : p ∈ pieces) :
      p.1.read opcode = p.2.field.toNat % twoPow p.1.width :=
    read_of_pieces fits returns rfl member
  -- First the index bytes, then the rest of the operands.
  have indexed : m.indexed hit (bytes ++ suffix) address =
      (pieces.map fun p => (p.1, (p.2.bytes m.config base .index).head?),
        (m.decoding (m.foundAt hit (bytes ++ suffix)) address (bytes ++ suffix)).past
          index.length) := by
    rw [Machine.indexed, start]
    exact readIndexes_of_returns returns fields rfl
  rw [start] at indexed
  have ahead : (m.indexed hit (bytes ++ suffix) address).2.rest = payload ++ suffix := by
    rw [indexed]
    simp
  obtain ⟨stop, recovered⟩ := readings_of_returns returns (by rw [indexed]; rfl)
    (by rw [indexed]; exact fields) ahead
  have course : m.course hit (bytes ++ suffix) address = m.readings hit.2
      (pieces.map fun p => (p.1, (p.2.bytes m.config base .index).head?))
      (m.indexed hit (bytes ++ suffix) address).2 := by
    rw [Machine.course, indexed]
  rw [← course] at stop recovered
  have behind : m.finish hit (bytes ++ suffix) address = _ := stop
  refine ⟨by simpa using hits, ?_, ?_, ?_⟩
  · rw [behind, indexed]
    rfl
  · have whole := m.finish_append hit (bytes ++ suffix) address custom
    apply List.append_inj_left' whole
    rw [behind, indexed]
    simp [payload, index]
  · intro origin measured
    refine recovered origin ?_
    rw [indexed, measured, Decoding.base]
    simp [origin]

end Whole

/-- A line that is read as an entry gives an instruction whose operands can be read back. -/
theorem Writes.exists_returns {symbols : Symbols} {line : String} {address : UInt32} {name : String}
    {hit : Page Mode × Entry Mode} {ops : List (Operand Mode Reg)}
    (writes : m.Writes symbols line address name hit ops) (steady : m.config.steady = true)
    (returns : ∀ slot ∈ hit.2.slots, ∀ op ∈ ops, m.accepts slot.mode op.mode = true → ∀ room,
      ∃ piece cause, ∀ base, m.Returns base Q hit.2 slot op room piece cause) :
    ∃ base pieces fault, Pieces (m.Returns base Q hit.2) hit.2.slots ops hit.1.gap pieces fault ∧
      (m.assemble symbols line address).bytes = m.layout hit.1 hit.2 pieces base := by
  obtain ⟨pieces, fault, related⟩ := Pieces.exists_of_each
    (fun slot op ⟨own, among, accepted⟩ => returns slot own op among accepted)
    (forall₂_mem writes.accepted) hit.1.gap
  obtain ⟨base, late, encoded⟩ := encode_eq address steady
    (related.imp fun _ _ _ _ _ related => (related.2 0).lays)
  refine ⟨base, pieces, fault, related.imp fun _ _ _ _ _ related => related.2 base, ?_⟩
  rw [writes.assembled, encoded]

end Machine

end CrossAsm

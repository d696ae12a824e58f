import CrossAsm.Proofs.Indexed
import CrossAsm.Proofs.Inverse

/-! Lines that are assembled without a fault, operand by operand. Their bytes lead back to the entry
they were read as, and each slot of it gives an operand again. What is laid down without a fault is
known from how it was laid down, so it is enough to say for each operand what comes back from it. -/

namespace CrossAsm

variable {Mode Reg : Type} {m : Machine Mode Reg} {entry : Entry Mode} {slot : Slot Mode}

/-! ### Operands that are read without a fault -/

namespace Operand

variable {op : Operand Mode Reg}

theorem withValue_of_clean {v : Value} (clean : (op.withValue v).fault = none) :
    op.withValue v = { op with value := v.toInt, undefined := false, fault := none } := by
  simp only [withValue, Option.or_eq_none_iff, ite_eq_right_iff, reduceCtorEq, imp_false,
    Bool.not_eq_true] at clean
  simp [withValue, clean]

/-- An expression that is taken over without a fault changes nothing but the value. -/
theorem parseValue_of_clean {scope : Scope} {c : Cursor}
    (clean : (op.parseValue scope c).1.fault = none) :
    ∃ v, (op.parseValue scope c).1 = { op with value := v, undefined := false, fault := none } := by
  unfold parseValue at clean ⊢
  split at clean
  next v after evaluated => exact ⟨v.toInt, withValue_of_clean clean⟩
  · simp [failed] at clean

theorem close_of_clean {ch : Char} {c : Cursor} (clean : (op.close ch c).1.fault = none) :
    (op.close ch c).1 = op := by
  simp only [close] at clean ⊢
  split at clean
  · rfl
  · simp [failed] at clean

/-- An operand that is closed unless it failed already. -/
theorem closed_of_clean {ch : Char} {c : Cursor}
    (clean : (if op.hardFault?.isSome then (op, c) else op.close ch c).1.fault = none) :
    (if op.hardFault?.isSome then (op, c) else op.close ch c).1 = op := by
  by_cases hard : op.hardFault?.isSome
  · rw [if_pos hard]
  · rw [if_neg hard] at clean ⊢
    exact close_of_clean clean

end Operand

/-! ### Blank drafts -/

/-- A draft that nothing is laid down in. -/
def Draft.blank (config : Config) (room : Nat) : Draft := ⟨0, config, [], room, 0, 0#32, []⟩

/-- What is laid down in a blank draft shows the piece, as far as it can be read back. -/
theorem Draft.lay_blank_inj {config : Config} {room : Nat} {field field' : BitVec 32}
    {extensions extensions' : List Extension} (inside : slot.pos + slot.width ≤ 32)
    (same : (blank config room).lay slot field extensions =
      (blank config room).lay slot field' extensions') :
    extensions = extensions' ∧ field.toNat % twoPow slot.width = field'.toNat % twoPow slot.width := by
  have placed : slot.place field = slot.place field' := by
    simpa [blank, lay] using congrArg Draft.opcode same
  refine ⟨by simpa [blank, lay] using congrArg Draft.extensions same, ?_⟩
  rw [← slot.read_place field inside, placed, slot.read_place field' inside]

namespace Machine

/-! ### Decoding what was assembled -/

/-- With this suffix, the bytes are found to be those of the entry, nothing is reported and just they
are taken, and each slot gives an operand that is related to the one written for it. -/
def GivesBack (m : Machine Mode Reg)
    (Q : Slot Mode → Operand Mode Reg → Operand Mode Reg → Prop) (bytes suffix : List UInt8)
    (address : UInt32) (page : Page Mode) (entry : Entry Mode) (ops : List (Operand Mode Reg)) :
    Prop :=
  ∃ found backs stop, m.findByOpcode (bytes ++ suffix) = some found ∧ found.page = page ∧
    found.entry = entry ∧
    m.decodeOperands found.entry (m.decoding found address (bytes ++ suffix)) = (backs, stop) ∧
    stop.fault = none ∧ stop.bytes = bytes ∧
    List.Forall₂ (fun (written : Slot Mode × Operand Mode Reg) back =>
      Q written.1 written.2 back) (entry.slots.zip ops) backs

theorem exists_operands {Q : Slot Mode → Operand Mode Reg → Operand Mode Reg → Prop}
    {written : List (Slot Mode × Operand Mode Reg)} {readings : List (Reading m entry)}
    (each : List.Forall₂ (fun (written : Slot Mode × Operand Mode Reg) r =>
      ∃ back, r.operand = some back ∧ Q written.1 written.2 back) written readings) :
    List.Forall₂ (fun (written : Slot Mode × Operand Mode Reg) back =>
      Q written.1 written.2 back) written (readings.filterMap (·.operand)) := by
  induction each with
  | nil => exact .nil
  | cons first _ ih =>
    obtain ⟨back, found, related⟩ := first
    rw [List.filterMap_cons, found]
    exact .cons related ih

theorem LeadsTo.givesBack {Q : Slot Mode → Operand Mode Reg → Operand Mode Reg → Prop}
    {bytes suffix : List UInt8} {address : UInt32} {hit : Page Mode × Entry Mode}
    {ops : List (Operand Mode Reg)} (leads : m.LeadsTo bytes suffix address hit)
    (untidied : ∀ ops, m.tidy ops = ops)
    (each : List.Forall₂ (fun (written : Slot Mode × Operand Mode Reg) r =>
      ∃ back, r.operand = some back ∧ Q written.1 written.2 back) (hit.2.slots.zip ops)
      (m.course hit (bytes ++ suffix) address)) :
    m.GivesBack Q bytes suffix address hit.1 hit.2 ops := by
  obtain ⟨found, clean, whole⟩ := leads
  refine ⟨m.foundAt hit (bytes ++ suffix), _, m.finish hit (bytes ++ suffix) address, ?_, rfl, rfl, ?_,
    clean, whole, exists_operands each⟩
  · rw [findByOpcode_eq, found]
    rfl
  · simp only [decodeOperands, decodeSlots_eq, untidied]
    rfl

/-! ### What a line without a fault is made of -/

/-- A line that gives bytes is read as the entry that is found for its name and its operands. -/
theorem exists_found {symbols : Symbols} {line : String} {address : UInt32}
    (filled : (m.assemble symbols line address).bytes ≠ []) :
    ∃ name after page entry ops, (Cursor.start line).skipSpaces.ident? = some (name, after) ∧
      (m.parseOperands symbols address after).1 = ops ∧ m.findByName name ops = .ok (page, entry) ∧
      m.Writes symbols line address name (page, entry) ops := by
  obtain ⟨page, entry, ops, parsed⟩ := exists_parsed filled
  obtain ⟨-, name, after, ident, read, -, -, found, -⟩ := parseLine_eq_ok_iff.mp parsed
  obtain ⟨word, writes⟩ := writes_of_parseLine parsed
  -- The name of the line and the one it was looked up by are the same word.
  obtain ⟨rest, same, -⟩ := writes.named
  obtain ⟨rfl, -⟩ := Prod.mk.inj (Option.some.inj (ident.symm.trans same))
  exact ⟨name, after, page, entry, ops, ident, read, found, writes⟩

/-- An instruction without a fault has none in any of its operands and pieces. -/
theorem clean_of_encode {page : Page Mode} {ops : List (Operand Mode Reg)}
    {pieces : List (Slot Mode × Piece)} {early : Option Fault} {address : UInt32}
    (steady : m.config.steady = true)
    (lays : Pieces (m.Lays entry) entry.slots ops page.gap pieces early)
    (clean : (m.encode page entry ops address).fault = none) :
    let d := (m.draft page entry address).layAll pieces
    early = none ∧ (∀ op ∈ ops, op.fault = none) ∧ d.fault? = none ∧
      (m.encode page entry ops address).bytes = d.bytes ∧
      d.bytes = m.layout page entry pieces d.finalBase ∧
      ∀ p ∈ pieces, ∀ e ∈ p.2.extensions, (e.laid m.config d.finalBase).2 = none := by
  intro d
  have run : m.encodeOperands entry entry.slots ops (m.draft page entry address) = (d, early) :=
    encodeOperands_eq lays (m.draft page entry address) rfl rfl
  have config : d.config = m.config := by
    simp only [d, Draft.layAll_eq]
    rfl
  have extensions : d.extensions = pieces.flatMap (·.2.extensions) := by
    simp only [d, Draft.layAll_eq]
    exact List.nil_append _
  have bytes : d.bytes = m.layout page entry pieces d.finalBase := by
    rw [Draft.bytes_eq _ (config ▸ steady), bytesAt_draft_layAll]
  simp only [encode, run, Option.or_eq_none_iff, List.findSome?_eq_none_iff] at clean
  obtain ⟨⟨quiet, inside⟩, known⟩ := clean
  refine ⟨quiet, known, inside, by simp only [encode, run], bytes, fun p member e present => ?_⟩
  rw [Draft.fault?, Draft.chunks_eq _ (config ▸ steady), List.findSome?_eq_none_iff] at inside
  have among : e ∈ d.extensions := by
    rw [extensions]
    exact List.mem_flatMap_of_mem member present
  simpa [config] using inside _ (List.mem_map_of_mem among)

/-! ### One operand -/

/-- From one draft to the next a piece was laid down, which is read back as asked if its bytes are in
order. -/
def Answered (m : Machine Mode Reg) (base : Int) (Q : Operand Mode Reg → Prop) (entry : Entry Mode)
    (slot : Slot Mode) (d next : Draft) : Prop :=
  ∃ piece, next = d.lay slot piece.field piece.extensions ∧
    (∀ e ∈ piece.extensions, e.narrow = true) ∧
    ((∀ e ∈ piece.extensions, (e.laid m.config base).2 = none) →
      m.Yields base (Extension.settled m.config.ladder base) Q entry slot d.room piece)

/-- Whatever the operand is laid down as without a fault is read back as asked. -/
def Answers (m : Machine Mode Reg) (base : Int)
    (Q : Slot Mode → Operand Mode Reg → Operand Mode Reg → Prop) (entry : Entry Mode)
    (slot : Slot Mode) (op : Operand Mode Reg) : Prop :=
  ∀ d next : Draft, d.config = m.config → m.encodeOperand entry slot op d = (next, none) →
    m.Answered base (Q slot op) entry slot d next

/-- An operand that is read from its field alone. -/
theorem answered_field {base : Int} {Q : Operand Mode Reg → Prop} {field : BitVec 32} {d : Draft}
    (reads : ∀ state : Decoding, slot.read state.opcode = field.toNat % twoPow slot.width →
      ∃ back, m.decodeOperand entry slot none state = (some back, state) ∧ Q back) :
    m.Answered base Q entry slot d (d.lay slot field []) := by
  refine ⟨{ field }, rfl, by simp, fun _ state free more _ read gap _ _ => ?_⟩
  obtain ⟨back, decoded, holds⟩ := reads state read
  obtain rfl : state.gapBytes = free := gap
  exact ⟨back, decoded.trans (congrArg _ state.beyond_self.symm), fun _ => holds⟩

/-- An operand that comes back as its shape says. -/
theorem answered_of_bears {base : Int} {Q : Operand Mode Reg → Prop} {op : Operand Mode Reg}
    {d next : Draft}
    (bears : ∃ piece, next = d.lay slot piece.field piece.extensions ∧
      m.Bears base (Extension.settled m.config.ladder base) entry slot op d.room piece none)
    (weaker : ∀ back, m.Recovered entry slot op back → Q back) :
    m.Answered base Q entry slot d next := by
  obtain ⟨piece, laid, bears⟩ := bears
  refine ⟨piece, laid, bears.narrow, fun clean d free more config read gap roomless ahead => ?_⟩
  obtain ⟨back, decoded, recovered⟩ := bears.yields clean d free more config read gap roomless ahead
  exact ⟨back, decoded, fun measured => weaker back (recovered measured)⟩

theorem Lays.yields {base : Int} {Q : Slot Mode → Operand Mode Reg → Operand Mode Reg → Prop}
    {op : Operand Mode Reg} {room : Nat} {piece : Piece}
    (lays : m.Lays entry slot op room piece none) (answers : m.Answers base Q entry slot op)
    (inside : slot.pos + slot.width ≤ 32) :
    (∀ e ∈ piece.extensions, e.narrow = true) ∧
      ((∀ e ∈ piece.extensions, (e.laid m.config base).2 = none) →
        m.Yields base (Extension.settled m.config.ladder base) (Q slot op) entry slot room piece) := by
  -- In a blank draft the two pieces are the same for all that can be read back.
  obtain ⟨other, same, narrow, yields⟩ := answers (.blank m.config room) _ rfl (lays _ rfl rfl)
  obtain ⟨extensions, field⟩ := Draft.lay_blank_inj inside same
  rw [extensions]
  refine ⟨narrow, fun clean state free more config read gap roomless ahead => ?_⟩
  simp only [Piece.shown, extensions] at gap ahead ⊢
  exact yields clean state free more config (read.trans field) gap roomless ahead

/-- There is one piece that an operand becomes, as far as it can be read back. -/
theorem Lays.unique {op : Operand Mode Reg} {room : Nat} {piece other : Piece}
    {cause cause' : Option Cause} (lays : m.Lays entry slot op room piece cause)
    (again : m.Lays entry slot op room other cause') (inside : slot.pos + slot.width ≤ 32) :
    piece.extensions = other.extensions ∧
      piece.field.toNat % twoPow slot.width = other.field.toNat % twoPow slot.width := by
  have same := (lays (.blank m.config room) rfl rfl).symm.trans (again _ rfl rfl)
  exact Draft.lay_blank_inj inside (congrArg Prod.fst same)

theorem Returns.of_lays {base : Int} {Q : Slot Mode → Operand Mode Reg → Operand Mode Reg → Prop}
    {op : Operand Mode Reg} {room : Nat} {piece other : Piece} {cause cause' : Option Cause}
    (returns : m.Returns base Q entry slot op room other cause)
    (lays : m.Lays entry slot op room piece cause') (inside : slot.pos + slot.width ≤ 32) :
    m.Returns base Q entry slot op room piece cause' := by
  obtain ⟨extensions, field⟩ := lays.unique returns.lays inside
  have bytes (stage : Stage) : piece.bytes m.config base stage = other.bytes m.config base stage := by
    simp only [Piece.bytes, extensions]
  exact
    { lays
      gapless := extensions ▸ returns.gapless
      index := by
        rw [bytes, field]
        exact returns.index
      reads := by
        rw [bytes, bytes, field]
        exact returns.reads }

/-! ### All operands of an instruction without index bytes -/

/-- The piece has its bytes where the slot asks for, and is read back as asked. -/
structure Carries (m : Machine Mode Reg) (base : Int)
    (Q : Slot Mode → Operand Mode Reg → Operand Mode Reg → Prop) (entry : Entry Mode)
    (slot : Slot Mode) (op : Operand Mode Reg) (room : Nat) (piece : Piece) (cause : Option Cause) :
    Prop where
  full : room = 0 → piece.bytes m.config base .gap = []
  index : piece.bytes m.config base .index = []
  yields : m.Yields base (Extension.settled m.config.ladder base) (Q slot op) entry slot room piece

section Run

variable {base : Int} {Q : Slot Mode → Operand Mode Reg → Operand Mode Reg → Prop}

theorem gap_of_carries {slots : List (Slot Mode)} {ops : List (Operand Mode Reg)} {room : Nat}
    {pieces : List (Slot Mode × Piece)} {fault : Option Fault}
    (carries : Pieces (m.Carries base Q entry) slots ops room pieces fault) (full : room = 0) :
    pieces.flatMap (·.2.bytes m.config base .gap) = [] := by
  induction carries with
  | nil => rfl
  | cons first _ ih => simp [first.full full, ih (by omega)]

/-- Operands come back one after the other, where only the last is measured from the end of the
instruction. -/
theorem readings_of_carries {slots : List (Slot Mode)} {ops : List (Operand Mode Reg)} {room : Nat}
    {pieces : List (Slot Mode × Piece)} {fault : Option Fault}
    (carries : Pieces (m.Carries base Q entry) slots ops room pieces fault) {d : Decoding}
    {more : List UInt8} (config : d.config = m.config)
    (fields : ∀ p ∈ pieces, p.1.read d.opcode = p.2.field.toNat % twoPow p.1.width)
    (gap : d.gapBytes = pieces.flatMap (·.2.bytes m.config base .gap))
    (ahead : d.rest = pieces.flatMap (·.2.bytes m.config base .payload) ++ more)
    (last : ∀ s ∈ slots.dropLast, m.measured s = false)
    (settled : (d.past (pieces.flatMap (·.2.bytes m.config base .payload)).length).base = base) :
    List.Forall₂ (fun (written : Slot Mode × Operand Mode Reg) r => ∃ back, r.operand = some back ∧
      Q written.1 written.2 back) (slots.zip ops)
      (m.readings entry (slots.map fun s => (s, none)) d) := by
  induction carries generalizing d with
  | nil => exact .nil
  | @cons slot op room piece cause slots ops pieces later first rest ih =>
    have roomless := gap_of_carries (.cons first rest)
    rw [← gap] at roomless
    rw [List.flatMap_cons] at gap ahead settled
    rw [List.append_assoc] at ahead
    rw [List.length_append, ← d.past_past] at settled
    have yields := first.yields d _ _ config (fields (slot, piece) (by simp)) gap roomless ahead
    have bare : piece.shown m.config base (Extension.settled m.config.ladder base) .index = [] :=
      first.index
    rw [bare] at yields
    obtain ⟨back, decoded, related⟩ := yields
    have head : m.decodeOperand entry slot none d = (some back, d.beyond
        (piece.bytes m.config base .payload).length
        (pieces.flatMap (·.2.bytes m.config base .gap))) := decoded
    refine .cons ⟨back, by rw [Reading.operand, head], related fun measured => ?_⟩ ?_
    · -- An operand that is measured ends the instruction.
      cases rest with
      | nil =>
        have here : (d.past (piece.bytes m.config base .payload).length).base = base := by
          simpa using settled
        exact here
      | cons => simp [last slot (by simp)] at measured
    · rw [Reading.stop, head]
      refine ih config (fun p member => fields p (by simp [member])) rfl
        (by simp [Decoding.beyond, ahead]) (fun s member => last s ?_) settled
      cases slots with
      | nil => simp at member
      | cons => simpa using .inr member

/-- The operands of an instruction come back in the course of decoding it. -/
theorem course_of_carries {hit : Page Mode × Entry Mode} {ops : List (Operand Mode Reg)}
    {pieces : List (Slot Mode × Piece)} {fault : Option Fault} {own : Mode → Nat} {address : UInt32}
    {bytes : List UInt8}
    (carries : Pieces (m.Carries base Q hit.2) hit.2.slots ops hit.1.gap pieces fault)
    (complete : m.Complete own hit (pieces.flatMap (·.2.bytes m.config base .gap))
      (hit.2.opcode ||| placeAll (pieces.map fun p => (p.1, p.2.field)))
      (pieces.flatMap (·.2.bytes m.config base .payload)))
    (whole : bytes = m.instruction hit.1 (pieces.flatMap (·.2.bytes m.config base .gap))
      (hit.2.opcode ||| placeAll (pieces.map fun p => (p.1, p.2.field)))
      (pieces.flatMap (·.2.bytes m.config base .payload)))
    (fits : m.entryFits hit = true) (unindexed : m.Unindexed)
    (last : ∀ s ∈ hit.2.slots.dropLast, m.measured s = false)
    (settled : (m.draft hit.1 hit.2 address).base bytes.length = base) (suffix : List UInt8) :
    List.Forall₂ (fun (written : Slot Mode × Operand Mode Reg) r => ∃ back, r.operand = some back ∧
      Q written.1 written.2 back) (hit.2.slots.zip ops)
      (m.course hit (bytes ++ suffix) address) := by
  have start := m.decoding_append hit address
    (pieces.flatMap (·.2.bytes m.config base .payload) ++ suffix) complete.gapped
    complete.length_opcode
  rw [complete.number_opcode, ← List.append_assoc] at start
  subst whole
  rw [course, indexed, readIndexes_eq unindexed]
  simp only [instruction] at settled ⊢
  rw [start]
  refine readings_of_carries carries rfl (fun p member => ?_) rfl rfl last ?_
  · exact read_of_pieces fits carries rfl member
  · rw [Decoding.past_append rfl]
    exact settled

end Run

/-- Displacements are measured from the base that the length of the finished instruction leads to. -/
theorem base_length_bytes {page : Page Mode} {pieces : List (Slot Mode × Piece)} {address : UInt32}
    (good : Ladder.readable m.config.ladder = true) (short : m.opcodeLength page ≤ 4)
    (narrow : ∀ p ∈ pieces, ∀ e ∈ p.2.extensions, e.narrow = true)
    (clean : ((m.draft page entry address).layAll pieces).fault? = none) :
    (m.draft page entry address).base ((m.draft page entry address).layAll pieces).bytes.length =
      ((m.draft page entry address).layAll pieces).finalBase := by
  rw [← length_bytes _ _ _ clean]
  · simp only [Draft.finalBase, Draft.layAll_eq]
    rfl
  · rw [Draft.layAll_eq]
    exact good
  · rw [Draft.layAll_eq]
    exact short
  · intro e member
    simp only [Draft.layAll_eq, draft, List.nil_append, List.mem_flatMap] at member
    obtain ⟨p, present, inside⟩ := member
    exact narrow p present e inside

/-- A line without a fault gives back its operands, if each of them answers for itself. -/
theorem Writes.givesBack {Q : Slot Mode → Operand Mode Reg → Operand Mode Reg → Prop}
    {own : Mode → Nat} {C : Slot Mode → Operand Mode Reg → Piece → Option Cause → Prop}
    {symbols : Symbols} {line : String} {address : UInt32} {name : String}
    {hit : Page Mode × Entry Mode} {ops : List (Operand Mode Reg)} {suffix : List UInt8}
    (writes : m.Writes symbols line address name hit ops)
    (clean : (m.assemble symbols line address).fault = none)
    (leads : m.LeadsTo (m.assemble symbols line address).bytes suffix address hit)
    (steady : m.config.steady = true) (compact : m.Compact) (fits : m.entryFits hit = true)
    (unindexed : m.Unindexed) (untidied : ∀ ops, m.tidy ops = ops)
    (stands : ∀ slot ∈ hit.2.slots, ∀ op ∈ ops, m.accepts slot.mode op.mode = true → ∀ room,
      ∃ piece cause, m.Stands own C hit.2 slot op room piece cause)
    (answers : ∀ slot ∈ hit.2.slots, ∀ op ∈ ops, m.accepts slot.mode op.mode = true →
      op.fault = none → ∀ base, m.Answers base Q hit.2 slot op) :
    m.GivesBack Q (m.assemble symbols line address).bytes suffix address hit.1 hit.2 ops := by
  apply leads.givesBack untidied
  obtain ⟨pieces, early, related⟩ := Pieces.exists_of_each
    (fun slot op ⟨own, among, accepted⟩ => stands slot own op among accepted)
    (forall₂_mem writes.accepted) hit.1.gap
  have standing := related.imp fun _ _ _ _ _ => And.right
  rw [writes.assembled] at clean ⊢
  obtain ⟨rfl, silent, inside, bytes, whole, fine⟩ := clean_of_encode steady
    (standing.imp fun _ _ _ _ _ stands => stands.lays) clean
  let d := (m.draft hit.1 hit.2 address).layAll pieces
  have short := opcodeLength_le_of_entryFits fits
  -- Without a fault, each piece is read back from where it stands.
  have each := related.mem.imp (S := fun slot op room piece cause =>
      (∀ e ∈ piece.extensions, e.narrow = true) ∧
        m.Carries d.finalBase Q hit.2 slot op room piece cause) <| by
    rintro slot op room piece cause ⟨present, quiet, ⟨own, among, accepted⟩, stands⟩
    obtain rfl := quiet rfl
    have within := (Entry.slot_of_fieldsApart (fieldsApart_of_entryFits fits) own).2
    obtain ⟨narrow, yields⟩ := stands.lays.yields
      (answers slot own op among accepted (silent op among) d.finalBase) (by omega)
    refine ⟨narrow, fun full => ?_, stands.index _, yields (fine _ present)⟩
    -- Without room, the bytes of the gap have no length.
    apply List.eq_nil_of_length_eq_zero
    rw [stands.gap, stands.gaps, full]
    simp
  rw [bytes]
  refine course_of_carries (each.imp fun _ _ _ _ _ => And.right)
    (complete_of_stands fits standing _) (whole.trans (layout_of_stands standing d.finalBase)) fits
    unindexed (fun s member => ?_) ?_ suffix
  · unfold measured
    split
    next width shape => exact absurd shape (relative_of_entryFits fits member width)
    next shape => exact absurd shape (compact.rigid s.mode true)
    · rfl
  · exact base_length_bytes (by rw [compact.flat]; rfl) short
      (Pieces.forall_mem (fun _ _ _ _ _ => And.left) each) inside

/-! ### Instructions with index bytes -/

/-- A line without a fault gives back its operands, index bytes included, where an instruction is
measured from its start and each operand is read back from a piece that it becomes. -/
theorem Writes.givesBack_of_returns
    {Q : Slot Mode → Operand Mode Reg → Operand Mode Reg → Prop}
    {symbols : Symbols} {line : String} {address : UInt32} {name : String}
    {hit : Page Mode × Entry Mode} {ops : List (Operand Mode Reg)} {suffix : List UInt8}
    (writes : m.Writes symbols line address name hit ops)
    (clean : (m.assemble symbols line address).fault = none)
    (leads : m.LeadsTo (m.assemble symbols line address).bytes suffix address hit)
    (steady : m.config.steady = true) (start : m.config.origin = .start)
    (fits : m.entryFits hit = true) (gapless : hit.1.gap = 0) (plain : hit.2.post = none)
    (custom : m.CustomFollows) (untidied : ∀ ops, m.tidy ops = ops)
    (lays : ∀ slot ∈ hit.2.slots, ∀ op ∈ ops, m.accepts slot.mode op.mode = true → ∀ room,
      ∃ piece cause, m.Lays hit.2 slot op room piece cause)
    (returns : ∀ slot ∈ hit.2.slots, ∀ op ∈ ops, m.accepts slot.mode op.mode = true →
      op.fault = none → ∀ room piece, m.Lays hit.2 slot op room piece none →
      (∀ e ∈ piece.extensions, (e.laid m.config address.toNat).2 = none) →
      m.Returns address.toNat Q hit.2 slot op room piece none) :
    m.GivesBack Q (m.assemble symbols line address).bytes suffix address hit.1 hit.2 ops := by
  apply leads.givesBack untidied
  obtain ⟨pieces, early, related⟩ := Pieces.exists_of_each
    (fun slot op ⟨own, among, accepted⟩ => lays slot own op among accepted)
    (forall₂_mem writes.accepted) hit.1.gap
  rw [writes.assembled] at clean ⊢
  obtain ⟨rfl, silent, -, bytes, whole, fine⟩ := clean_of_encode steady
    (related.imp fun _ _ _ _ _ => And.right) clean
  -- Measured from the start, the base is known before the bytes are.
  have measured : ((m.draft hit.1 hit.2 address).layAll pieces).finalBase = address.toNat := by
    rw [Draft.layAll_eq, Draft.finalBase, Draft.base]
    simp only [draft, start]
  rw [measured] at whole fine
  have each := related.mem.imp (S := m.Returns address.toNat Q hit.2) <| by
    rintro slot op room piece cause ⟨present, quiet, ⟨own, among, accepted⟩, lays⟩
    obtain rfl := quiet rfl
    exact returns slot own op among accepted (silent op among) room piece lays (fine _ present)
  rw [bytes, whole]
  exact (finish_of_returns each suffix fits gapless plain custom address).2.2.2 start rfl

end Machine

end CrossAsm

import CrossAsm.Proofs.Extent

/-! Recovering an instruction from the bytes it was assembled to. A line that gives bytes was read
as an entry with operands; it remains to see which entry its bytes lead to, and that this one takes
them all. -/

namespace CrossAsm.Machine

variable {Mode Reg : Type} {m : Machine Mode Reg}

/-- The line is read as an instruction of this entry with these operands. -/
structure Writes (m : Machine Mode Reg) (symbols : Symbols) (line : String) (address : UInt32)
    (name : String) (hit : Page Mode × Entry Mode) (ops : List (Operand Mode Reg)) : Prop where
  named : ∃ after, (Cursor.start line).skipSpaces.ident? = some (name, after) ∧
    (m.parseOperands symbols address after).1 = ops
  own : hit ∈ m.ownEntries
  same : hit.2.name = Text.upper name
  accepted : List.Forall₂ (fun slot op => m.accepts slot.mode op.mode = true) hit.2.slots ops
  checked : m.check hit.2 ops = none
  parsed : ∀ op ∈ ops, ∃ scope c, (m.parseOperand scope c).1 = op
  soft : ∀ op ∈ ops, op.hardFault? = none
  assembled : m.assemble symbols line address = m.encode hit.1 hit.2 ops address

theorem forall₂_of_admits {slots : List (Slot Mode)} {ops : List (Operand Mode Reg)}
    (admits : m.admits slots ops = true) :
    List.Forall₂ (fun slot op => m.accepts slot.mode op.mode = true) slots ops := by
  induction slots generalizing ops with
  | nil =>
    cases ops with
    | nil => exact .nil
    | cons op ops => simp [Machine.admits] at admits
  | cons slot slots ih =>
    cases ops with
    | nil => simp [Machine.admits] at admits
    | cons op ops =>
      simp only [Machine.admits, Bool.and_eq_true] at admits
      exact .cons admits.1 (ih admits.2)

theorem found_of_findByName {name : String} {ops : List (Operand Mode Reg)}
    {hit : Page Mode × Entry Mode} (found : m.findByName name ops = .ok hit) :
    hit ∈ m.ownEntries ∧ hit.2.name = Text.upper name ∧ m.admits hit.2.slots ops = true := by
  simp only [findByName] at found
  split at found
  next first search =>
    obtain rfl : first = hit := by simpa using found
    have member := List.mem_of_find?_eq_some search
    simp only [candidates, List.mem_filter, beq_iff_eq] at member
    have admits := List.find?_some search
    exact ⟨List.mem_filter.mpr ⟨member.1.1, member.2⟩, member.1.2, admits⟩
  · simp at found

theorem parsed_of_parseList {scope : Scope} {fuel : Nat} {c : Cursor} {op : Operand Mode Reg}
    (member : op ∈ (m.parseList scope fuel c).1) :
    ∃ scope c, (m.parseOperand scope c).1 = op := by
  induction fuel generalizing c with
  | zero => simp [parseList] at member
  | succ fuel ih =>
    simp only [parseList] at member
    split at member
    · exact ⟨scope, c.skipSpaces, (List.mem_singleton.mp member).symm⟩
    · split at member
      · exact ⟨scope, c.skipSpaces, (List.mem_singleton.mp member).symm⟩
      · rcases List.mem_cons.mp member with rfl | later
        · exact ⟨scope, c.skipSpaces, rfl⟩
        · exact ih later

theorem parsed_of_parseOperands {symbols : Symbols} {address : UInt32} {c : Cursor}
    {op : Operand Mode Reg} (member : op ∈ (m.parseOperands symbols address c).1) :
    ∃ scope c, (m.parseOperand scope c).1 = op := by
  rw [parseOperands] at member
  split at member
  · simp at member
  · exact parsed_of_parseList member

/-- A line is an instruction exactly if it has a name, operands without hard faults and nothing behind
them, and an entry takes these. -/
theorem parseLine_eq_ok_iff {symbols : Symbols} {line : String} {address : UInt32}
    {page : Page Mode} {entry : Entry Mode} {ops : List (Operand Mode Reg)} :
    m.parseLine symbols line address = .ok (some (page, entry, ops)) ↔
      (Cursor.start line).skipSpaces.atEnd = false ∧
        ∃ name after, (Cursor.start line).skipSpaces.ident? = some (name, after) ∧
          (m.parseOperands symbols address after).1 = ops ∧ (∀ op ∈ ops, op.hardFault? = none) ∧
          (m.parseOperands symbols address after).2.atEnd = true ∧
          m.findByName name ops = .ok (page, entry) ∧ m.check entry ops = none := by
  constructor
  · intro parsed
    simp only [parseLine] at parsed
    split at parsed
    · simp at parsed
    next filled =>
      refine ⟨by simpa using filled, ?_⟩
      split at parsed
      · simp at parsed
      next name after ident =>
        split at parsed
        · simp at parsed
        next soft =>
          split at parsed
          · simp at parsed
          next ended =>
            split at parsed
            · simp at parsed
            · simp at parsed
            next hitPage hitEntry found =>
              split at parsed
              · simp at parsed
              next checked =>
                simp only [Except.ok.injEq, Option.some.injEq, Prod.mk.injEq] at parsed
                obtain ⟨rfl, rfl, rfl⟩ := parsed
                exact ⟨name, after, ident, rfl, List.findSome?_eq_none_iff.mp soft,
                  by simpa using ended, found, checked⟩
  · rintro ⟨filled, name, after, ident, rfl, soft, ended, found, checked⟩
    have silent := List.findSome?_eq_none_iff.mpr soft
    simp only [parseLine, filled, ident, silent, ended, found, checked, Bool.not_true,
      Bool.false_eq_true, if_false]

theorem writes_of_parseLine {symbols : Symbols} {line : String} {address : UInt32}
    {page : Page Mode} {entry : Entry Mode} {ops : List (Operand Mode Reg)}
    (parsed : m.parseLine symbols line address = .ok (some (page, entry, ops))) :
    ∃ name, m.Writes symbols line address name (page, entry) ops := by
  have assembled : m.assemble symbols line address = m.encode page entry ops address := by
    simp only [assemble, parsed]
  obtain ⟨-, name, after, ident, read, soft, -, found, checked⟩ := parseLine_eq_ok_iff.mp parsed
  obtain ⟨own, same, admits⟩ := found_of_findByName found
  exact ⟨name, {
    named := ⟨after, ident, read⟩
    own := own
    same := same
    accepted := forall₂_of_admits admits
    checked := checked
    parsed := fun op member => parsed_of_parseOperands (read ▸ member)
    soft := soft
    assembled := assembled }⟩

/-- Only a line that is read as an instruction gives bytes. -/
theorem exists_parsed {symbols : Symbols} {line : String} {address : UInt32}
    (bytes : (m.assemble symbols line address).bytes ≠ []) :
    ∃ page entry ops, m.parseLine symbols line address = .ok (some (page, entry, ops)) := by
  cases parsed : m.parseLine symbols line address with
  | error f => simp [assemble, parsed] at bytes
  | ok found =>
    rcases found with _ | ⟨page, entry, ops⟩
    · simp [assemble, parsed] at bytes
    · exact ⟨page, entry, ops, rfl⟩

theorem exists_writes {symbols : Symbols} {line : String} {address : UInt32}
    (bytes : (m.assemble symbols line address).bytes ≠ []) :
    ∃ name hit ops, m.Writes symbols line address name hit ops := by
  obtain ⟨page, entry, ops, parsed⟩ := exists_parsed bytes
  obtain ⟨name, writes⟩ := writes_of_parseLine parsed
  exact ⟨name, (page, entry), ops, writes⟩

/-- A line with something on it is an instruction or faulty. -/
theorem parsed_or_error {symbols : Symbols} {line : String} {address : UInt32}
    (filled : (Cursor.start line).skipSpaces.atEnd = false) :
    (∃ page entry ops, m.parseLine symbols line address = .ok (some (page, entry, ops))) ∨
      ∃ f, m.parseLine symbols line address = .error f := by
  cases parsed : m.parseLine symbols line address with
  | error f => exact .inr ⟨f, rfl⟩
  | ok found =>
    rcases found with _ | ⟨page, entry, ops⟩
    · simp only [parseLine, filled, Bool.false_eq_true, if_false] at parsed
      repeat' split at parsed
      all_goals simp at parsed
    · exact .inl ⟨page, entry, ops, rfl⟩

/-- A line with something on it that has no fault is read as an instruction. -/
theorem exists_writes_of_clean {symbols : Symbols} {line : String} {address : UInt32}
    (filled : (Cursor.start line).skipSpaces.atEnd = false)
    (clean : (m.assemble symbols line address).fault = none) :
    ∃ name hit ops, m.Writes symbols line address name hit ops := by
  rcases m.parsed_or_error filled with ⟨page, entry, ops, parsed⟩ | ⟨f, parsed⟩
  · obtain ⟨name, writes⟩ := writes_of_parseLine parsed
    exact ⟨name, (page, entry), ops, writes⟩
  · simp [assemble, parsed] at clean

/-- A line that cannot be read is not just waiting for a symbol, as long as no check of its operands
says so. -/
theorem hard_of_parseLine
    (checks : ∀ entry ops cause, m.check entry ops = some cause → cause ≠ .undefinedSymbol)
    {symbols : Symbols} {line : String} {address : UInt32} {f : Fault}
    (failed : m.parseLine symbols line address = .error f) : f.isSoft = false := by
  have located {cause : Cause} (place : Nat) (hard : cause ≠ .undefinedSymbol) :
      (cause.located place).isSoft = false := by
    simpa [Fault.isSoft, Cause.located] using hard
  simp only [parseLine] at failed
  split at failed
  · simp at failed
  · split at failed
    · exact Except.error.inj failed ▸ rfl
    · split at failed
      next hard =>
        obtain ⟨op, -, found⟩ := List.exists_of_findSome?_eq_some hard
        obtain rfl := Except.error.inj failed
        simpa using (Option.filter_eq_some_iff.mp found).2
      · split at failed
        · exact Except.error.inj failed ▸ rfl
        · split at failed
          · exact Except.error.inj failed ▸ rfl
          -- A name is not found because it is unknown or does not take the operands.
          next cause _ missing =>
            have hard : cause ≠ .undefinedSymbol := by
              simp only [findByName] at missing
              split at missing
              · simp at missing
              · split at missing <;> (obtain rfl := Except.error.inj missing; decide)
            exact Except.error.inj failed ▸ located _ hard
          · split at failed
            next cause rejected =>
              exact Except.error.inj failed ▸ located _ (checks _ _ _ rejected)
            · simp at failed

/-- A line that is read as an entry gives an instruction as long as the entry asks for, whatever its
operands. -/
theorem Writes.exists_complete {own : Mode → Nat}
    {C : Slot Mode → Operand Mode Reg → Piece → Option Cause → Prop} {symbols : Symbols}
    {line : String} {address : UInt32} {name : String} {hit : Page Mode × Entry Mode}
    {ops : List (Operand Mode Reg)} (writes : m.Writes symbols line address name hit ops)
    (steady : m.config.steady = true) (fits : m.entryFits hit = true)
    (stands : ∀ slot ∈ hit.2.slots, ∀ op ∈ ops, m.accepts slot.mode op.mode = true → ∀ room,
      ∃ piece cause, m.Stands own C hit.2 slot op room piece cause) :
    ∃ pieces early late gap opcode payload,
      Pieces (fun slot op room piece cause => m.accepts slot.mode op.mode = true ∧
        m.Stands own C hit.2 slot op room piece cause) hit.2.slots ops hit.1.gap pieces early ∧
      opcode = hit.2.opcode ||| placeAll (pieces.map fun p => (p.1, p.2.field)) ∧
      (∃ base, payload = pieces.flatMap (·.2.bytes m.config base .payload)) ∧
      m.Complete own hit gap opcode payload ∧
      m.assemble symbols line address = ⟨address, m.instruction hit.1 gap opcode payload,
        (early.or late).or (ops.findSome? (·.fault))⟩ := by
  obtain ⟨pieces, early, related⟩ := Pieces.exists_of_each
    (fun slot op ⟨own, among, accepted⟩ => stands slot own op among accepted)
    (forall₂_mem writes.accepted) hit.1.gap
  have standing := related.imp fun _ _ _ _ _ => And.right
  obtain ⟨base, late, encoded⟩ := encode_eq address steady
    (standing.imp fun _ _ _ _ _ stands => stands.lays)
  refine ⟨pieces, early, late, _, _, _,
    related.imp fun _ _ _ _ _ ⟨⟨_, _, accepted⟩, stands⟩ => ⟨accepted, stands⟩, rfl, ⟨base, rfl⟩,
    complete_of_stands fits standing base, ?_⟩
  rw [writes.assembled, encoded, layout_of_stands standing base]

/-- With this suffix the bytes lead to an entry that takes just them. -/
def LeadsTo (m : Machine Mode Reg) (bytes suffix : List UInt8) (address : UInt32)
    (first : Page Mode × Entry Mode) : Prop :=
  m.ownEntries.find? (m.hits (bytes ++ suffix)) = some first ∧
    (m.finish first (bytes ++ suffix) address).fault = none ∧
    (m.finish first (bytes ++ suffix) address).bytes = bytes

theorem Complete.leadsTo {own : Mode → Nat} {first : Page Mode × Entry Mode}
    {gap payload : List UInt8} {opcode : BitVec 32}
    (complete : m.Complete own first gap opcode payload) (unindexed : m.Unindexed)
    (custom : m.CustomFollows) (legible : ∀ s ∈ first.2.slots, m.Legible own first.2 s opcode)
    {suffix : List UInt8} (address : UInt32)
    (found : m.ownEntries.find? (m.hits (m.instruction first.1 gap opcode payload ++ suffix)) =
      some first) : m.LeadsTo (m.instruction first.1 gap opcode payload) suffix address first :=
  ⟨found, complete.finish_eq unindexed custom legible suffix address⟩

/-- An entry takes its opcode at least. -/
theorem LeadsTo.ne_nil {bytes suffix : List UInt8} {address : UInt32}
    {first : Page Mode × Entry Mode} (leads : m.LeadsTo bytes suffix address first)
    (custom : m.CustomFollows) (coded : 0 < m.opcodeLength first.1) : bytes ≠ [] := by
  obtain ⟨found, -, whole⟩ := leads
  have long := m.opcodeLength_le_finish first (bytes ++ suffix) address custom (List.find?_some found)
  rw [whole] at long
  exact List.length_pos_iff.mp (Nat.lt_of_lt_of_le coded long)

/-- Decoding at bytes that lead to an entry reports nothing and moves behind them. -/
theorem decode_of_leadsTo {bytes suffix : List UInt8} {first : Page Mode × Entry Mode} {r : Reader}
    (leads : m.LeadsTo bytes suffix r.address first) (ahead : r.rest = bytes ++ suffix)
    (proper : isName first.2.name = true) (symbols : Symbols) (style : Style) :
    let back := m.decode symbols style r
    back.1.address = r.address ∧ back.1.fault = none ∧ back.1.bytes = bytes ∧
      back.2 = r.skip bytes.length ∧ (style.lowercase = false → back.1.mnemonic = first.2.name) := by
  obtain ⟨found, clean, whole⟩ := leads
  rw [← ahead] at found clean whole
  have decoded := m.decode_eq symbols style found
  intro back
  simp only [back, decoded, clean, whole, true_and]
  intro upper
  have capital : Text.upper first.2.name = first.2.name := by
    simp only [isName, Bool.and_eq_true, beq_iff_eq] at proper
    exact proper.1.1
  simp [Rendering.case, rendering, upper, capital]

end CrossAsm.Machine

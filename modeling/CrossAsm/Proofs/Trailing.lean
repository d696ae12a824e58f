import CrossAsm.Proofs.Inverse

/-! Displacements with more of the instruction behind them. The assembler measures them from the end
of the whole instruction, the disassembler from where it has read to. A target comes back as far away
as there are cells behind its field, and every other operand as it was written. -/

namespace CrossAsm

variable {Mode Reg : Type} {m : Machine Mode Reg} {entry : Entry Mode} {slot : Slot Mode}

theorem Config.wrap_sub_eq_iff (c : Config) (v : Int) (n : Nat) :
    c.wrap (v - n) = c.wrap v ↔ n % twoPow (min c.addressBits 32) = 0 := by
  rw [wrap, wrap, Int.emod_eq_emod_iff_emod_sub_eq_zero, ← Nat.dvd_iff_mod_eq_zero,
    ← Int.natCast_dvd_natCast, Int.dvd_iff_emod_eq_zero.symm, sub_sub_cancel_left, dvd_neg]

namespace Machine

/-- Does the operand of the slot at this place of the entry have bytes behind the opcode? The gap takes
the displacements that come first. -/
def trails (m : Machine Mode Reg) (page : Page Mode) (entry : Entry Mode) (i : Nat)
    (slot : Slot Mode) : Bool :=
  m.extended slot &&
    !(m.inGap slot && decide ((entry.slots.take i).countP m.inGap < page.gap))

/-- Cells behind an operand in an instruction of `total` bytes, of which `left` stand behind it. -/
def cellsBehind (m : Machine Mode Reg) (total left : Nat) : Nat :=
  total / m.config.cell.bytes - (total - left) / m.config.cell.bytes

/-! ### Which operands have bytes behind the opcode -/

/-- Whether or not its register can be read, an indexed operand goes on with its displacement. -/
theorem exists_stop_indexed (index : Option UInt8) (d : Decoding) {disp : Width} {signed : Bool}
    {n : Nat} (shape : m.shape slot.mode = .indexed disp signed)
    (sized : disp.bytes? entry.size = some n) :
    ∃ next : Decoding, next.gapBytes = d.gapBytes ∧ next.bytes = d.bytes ∧ next.rest = d.rest ∧
      (m.decodeOperand entry slot index d).2 = (next.readDisp n).2 := by
  simp only [decodeOperand, shape, sized]
  refine ⟨_, ?_, ?_, ?_, rfl⟩ <;>
  · split
    · split <;> rfl
    · rfl

/-- Without bytes in the gap or ahead, no operand is read that has bytes outside the opcode. -/
theorem fault_of_starved {index : Option UInt8} {d stop : Decoding} {back : Operand Mode Reg}
    (generic : m.shape slot.mode ≠ .custom) (extended : m.extended slot = true)
    (gap : d.gapBytes = []) (rest : d.rest = [])
    (decoded : m.decodeOperand entry slot index d = (some back, stop)) : stop.fault ≠ none := by
  intro clean
  have nothing {n : Nat} (positive : 0 < n) (enough : n ≤ d.rest.length) : False := by
    rw [rest, List.length_nil] at enough
    omega
  have quiet : (m.decodeOperand entry slot index d).2.fault = none := by rw [decoded]; exact clean
  cases shape : m.shape slot.mode with
  | implied | register | embedded _ | bit => simp [Machine.extended, shape] at extended
  | immediate width =>
    obtain ⟨n, sized, enough⟩ := enough_of_number index (.inl shape) quiet
    exact nothing (Width.bytes?_pos sized) enough
  | absolute width =>
    obtain ⟨n, sized, enough⟩ := enough_of_number index (.inr shape) quiet
    exact nothing (Width.bytes?_pos sized) enough
  | relative width =>
    cases sized : width.bytes? entry.size with
    | none => simp [decodeOperand, shape, sized] at decoded
    | some n =>
      simp only [decodeOperand, shape, sized] at quiet
      exact nothing (Width.bytes?_pos sized) (Decoding.enough_of_readIn quiet)
  | indexed disp signed =>
    cases sized : disp.bytes? entry.size with
    | none => simp [decodeOperand, shape, sized] at decoded
    | some n =>
      obtain ⟨next, left, -, ahead, same⟩ := exists_stop_indexed index d shape sized
      have positive := Width.bytes?_pos sized
      rw [same, Decoding.readDisp_rest (by rw [left, gap, List.length_nil]; omega)] at quiet
      exact nothing positive (ahead ▸ Decoding.enough_of_readIn quiet)
  | ladder relative =>
    simp only [decodeOperand, shape, Decoding.readLadder, rest] at quiet
    exact Decoding.fail_fault_ne_none d .noMemory quiet
  | custom => exact generic shape

/-- A displacement that the gap holds is not read from what is ahead. -/
theorem bytes_of_inGap {index : Option UInt8} {d stop : Decoding} {back : Operand Mode Reg}
    (inside : m.inGap slot = true) (room : m.span (fun _ => 0) entry slot ≤ d.gapBytes.length)
    (decoded : m.decodeOperand entry slot index d = (some back, stop)) : stop.bytes = d.bytes := by
  cases shape : m.shape slot.mode with
  | indexed disp signed =>
    cases sized : disp.bytes? entry.size with
    | none => simp [decodeOperand, shape, sized] at decoded
    | some n =>
      simp only [span, shape, sized, Option.getD_some] at room
      obtain ⟨next, left, before, -, same⟩ := exists_stop_indexed index d shape sized
      rw [decoded, Decoding.readDisp_gap (left ▸ room) (Width.bytes?_le sized)] at same
      have kept := congrArg Decoding.bytes same
      exact kept.trans before
  | _ => simp [inGap, shape] at inside

section Behind

variable {base : Int} {size : Extension → Nat}

/-- An operand has nothing behind the opcode exactly if all of it is in the opcode or in the gap. -/
theorem Bears.payload_eq_nil_iff {op : Operand Mode Reg} {room : Nat} {piece : Piece}
    {cause : Option Cause} (bears : m.Bears base size entry slot op room piece cause)
    (clean : ∀ e ∈ piece.extensions, (e.render m.config base (size e)).2 = none)
    (generic : m.shape slot.mode ≠ .custom) (inside : slot.pos + slot.width ≤ 32) :
    piece.shown m.config base size .payload = [] ↔
      m.extended slot = false ∨ m.inGap slot = true ∧ 0 < room := by
  -- The operand is read back from a state that has its piece and nothing else.
  let d : Decoding :=
    { config := m.config, address := 0, opcode := slot.place piece.field
      gapBytes := piece.shown m.config base size .gap, bytes := []
      rest := piece.shown m.config base size .payload }
  have state : m.Ahead base size [(slot, piece)] [] d :=
    { config := rfl
      fields := by simpa using slot.read_place piece.field inside
      gap := by simp [d]
      rest := by simp [d] }
  obtain ⟨back, decoded, -, -⟩ := state.exists_back bears (.nil _) clean
  have gapped := bears.gapped
  constructor
  · intro nothing
    by_contra both
    obtain ⟨outside, ungapped⟩ := not_or.mp both
    have full : (m.inGap slot && decide (0 < room)) = false := by simpa using ungapped
    rw [full, if_neg Bool.false_ne_true, List.length_eq_zero_iff] at gapped
    exact fault_of_starved generic (by simpa using outside) gapped nothing decoded rfl
  · rintro (plain | ⟨inGap, roomy⟩)
    · simp [Piece.shown, bears.plain plain]
    · simp only [inGap, roomy, decide_true, Bool.true_and, if_true] at gapped
      have kept := bytes_of_inGap inGap (Nat.le_of_eq gapped.symm) decoded
      simpa [d, Decoding.beyond] using kept

variable {slots : List (Slot Mode)} {ops : List (Operand Mode Reg)} {room : Nat}
  {pieces : List (Slot Mode × Piece)} {fault : Option Fault}
  (bears : Pieces (m.Bears base size entry) slots ops room pieces fault)
  (clean : ∀ p ∈ pieces, ∀ e ∈ p.2.extensions, (e.render m.config base (size e)).2 = none)

include bears clean

theorem payload_eq_nil_iff (generic : ∀ s ∈ slots, m.shape s.mode ≠ .custom)
    (inside : ∀ s ∈ slots, s.pos + s.width ≤ 32) {i : Nat} (here : slots[i]? = some slot) :
    (pieces.map (·.2.shown m.config base size .payload))[i]? = some [] ↔ m.extended slot = false ∨
      m.inGap slot = true ∧ (slots.take i).countP m.inGap < room := by
  induction bears generalizing i with
  | nil => simp at here
  | @cons first op room piece cause slots ops pieces later bear rest ih =>
    cases i with
    | zero =>
      obtain rfl : first = slot := by simpa using here
      simpa using bear.payload_eq_nil_iff (clean (first, piece) (by simp)) (generic first (by simp))
        (inside first (by simp))
    | succ i =>
      have more := ih (fun p member => clean p (by simp [member]))
        (fun s member => generic s (by simp [member])) (fun s member => inside s (by simp [member]))
        (by simpa using here)
      -- A displacement takes one of the gap's places for as long as there are any.
      have taken := bear.gaps
      have left : (slots.take i).countP m.inGap < room - piece.gaps ↔
          (slots.take i).countP m.inGap + (if m.inGap first = true then 1 else 0) < room := by
        cases inGap : m.inGap first with
        | false =>
          simp only [inGap, Bool.false_and, Bool.false_eq_true, if_false] at taken ⊢
          omega
        | true =>
          simp only [inGap, Bool.true_and, decide_eq_true_eq, if_true] at taken ⊢
          split at taken <;> omega
      simp only [List.map_cons, List.getElem?_cons_succ, List.take_succ_cons, List.countP_cons, more,
        left]

/-- Every operand comes back, measured from where the disassembler has read to. -/
theorem exists_decodeSlots_at {d : Decoding} {more : List UInt8}
    (state : m.Ahead base size pieces more d) :
    ∃ backs, m.decodeSlots entry (slots.map fun s => (s, none)) d =
        (backs, d.beyond (pieces.flatMap (·.2.shown m.config base size .payload)).length []) ∧
      backs.length = slots.length ∧
      ∀ i slot op, slots[i]? = some slot → ops[i]? = some op → ∃ back, backs[i]? = some back ∧
        m.Returned entry slot op ((d.past ((pieces.map (·.2.shown m.config base size .payload)).take
          (i + 1)).flatten.length).base - base) back := by
  induction bears generalizing d with
  | nil room =>
    have empty : d.gapBytes = [] := state.gap
    exact ⟨[], congrArg _ (empty ▸ d.beyond_self.symm), rfl, by simp⟩
  | @cons slot op room piece cause slots ops pieces later first rest ih =>
    obtain ⟨back, decoded, returned, onward⟩ := state.exists_back first rest
      (clean (slot, piece) (by simp))
    -- The operands behind are read from where the first one stops, and count their places from there.
    obtain ⟨backs, run, count, each⟩ := ih (fun p member => clean p (by simp [member])) onward
    rw [Decoding.beyond_beyond] at run
    refine ⟨back :: backs, ?_, by simp [count], ?_⟩
    · rw [List.flatMap_cons, List.length_append]
      simp only [List.map_cons, decodeSlots, decoded, run]
      rfl
    · intro i slot' op' here written
      cases i with
      | zero =>
        obtain rfl : slot = slot' := by simpa using here
        obtain rfl : op = op' := by simpa using written
        exact ⟨back, rfl, by simpa using returned⟩
      | succ i =>
        obtain ⟨later, found, shifted⟩ := each i slot' op' (by simpa using here)
          (by simpa using written)
        rw [Decoding.base_past_beyond] at shifted
        exact ⟨later, by simpa using found, by simpa using shifted⟩

end Behind

/-! ### The finished instruction -/

/-- The disassembler has read to where the assembler measures from, less the cells behind. -/
theorem base_past_sub (page : Page Mode) (entry : Entry Mode) {d : Decoding} {address : UInt32}
    {passed left : Nat} (finish : m.config.origin = .finish) (config : d.config = m.config)
    (place : d.address = address) (enough : passed + left ≤ d.rest.length) :
    (d.past passed).base - (m.draft page entry address).base (d.bytes.length + (passed + left)) =
      -(m.cellsBehind (d.bytes.length + (passed + left)) left : Nat) := by
  have read : (d.past passed).bytes.length = d.bytes.length + passed := by
    simp only [Decoding.past_bytes, List.length_append, List.length_take]
    omega
  have before : d.bytes.length + (passed + left) - left = d.bytes.length + passed := by omega
  have fewer : (d.bytes.length + passed) / m.config.cell.bytes ≤
      (d.bytes.length + (passed + left)) / m.config.cell.bytes := Nat.div_le_div_right (by omega)
  simp only [Decoding.base, Draft.base, draft, Decoding.consumed, Decoding.past_config, config, finish,
    Decoding.past_address, place, read, cellsBehind, before]
  omega

/-- Decoding starts where the pieces of the operands are ahead. -/
theorem ahead_of_finished {page : Page Mode} (address : UInt32) {base : Int}
    {size : Extension → Nat} {ops : List (Operand Mode Reg)} {pieces : List (Slot Mode × Piece)}
    {bytes : List UInt8} (separable : m.Separable page entry)
    (bears : Pieces (m.Bears base size entry) entry.slots ops page.gap pieces none)
    (whole : bytes = page.lead ++ pieces.flatMap (·.2.shown m.config base size .gap) ++
      m.config.endian.put (m.opcodeLength page)
        (entry.opcode ||| placeAll (pieces.map fun p => (p.1, p.2.field))).toNat ++
      pieces.flatMap (·.2.shown m.config base size .payload)) (suffix : List UInt8) :
    let start := m.decoding (m.foundAt (page, entry) (bytes ++ suffix)) address (bytes ++ suffix)
    m.Ahead base size pieces suffix start ∧ start.address = address ∧ start.fault = none ∧
      bytes = start.bytes ++ pieces.flatMap (·.2.shown m.config base size .payload) := by
  have gapped : (pieces.flatMap (·.2.shown m.config base size .gap)).length = m.gapLength page := by
    rw [length_gap_of_bears bears (separable.gap.imp_right fun ⟨one, _, found⟩ => ⟨one, found⟩),
      gapLength]
    rcases separable.gap with none | ⟨one, byte, -⟩
    · rw [none, Nat.zero_mul]
    · rw [one, byte]
      rfl
  have coded : (m.config.endian.put (m.opcodeLength page)
      (entry.opcode ||| placeAll (pieces.map fun p => (p.1, p.2.field))).toNat).length =
      m.opcodeLength page := by
    rw [Endian.length_put, Nat.min_eq_left separable.short]
  have start := m.decoding_append (page, entry) address
    (pieces.flatMap (·.2.shown m.config base size .payload) ++ suffix) gapped coded
  rw [← List.append_assoc, ← whole] at start
  intro first
  change first = _ at start
  rw [start]
  refine ⟨⟨rfl, fun p member => ?_, rfl, rfl⟩, rfl, rfl, whole⟩
  exact read_put separable bears.slots_eq member

/-- Operands that are laid down without a fault come back from the finished instruction, each from
bytes of its own behind the opcode, if it has any. What is measured comes back as far away as there
are cells behind these. -/
theorem exists_returned {page : Page Mode} (separable : m.Separable page entry)
    (finish : m.config.origin = .finish) {ops : List (Operand Mode Reg)} {address : UInt32}
    {d : Draft} (count : ops.length = entry.slots.length)
    (known : ∀ op ∈ ops, op.undefined = false)
    (laid : m.encodeOperands entry entry.slots ops (m.draft page entry address) = (d, none))
    (clean : d.fault? = none) (suffix : List UInt8) :
    ∃ (head : List UInt8) (chunks : List (List UInt8)), d.bytes = head ++ chunks.flatten ∧
      chunks.length = entry.slots.length ∧
      (∀ i slot, entry.slots[i]? = some slot →
        (chunks[i]? = some [] ↔ m.trails page entry i slot = false)) ∧
      ∃ backs stop, m.decodeOperands entry
          (m.decoding (m.foundAt (page, entry) (d.bytes ++ suffix)) address (d.bytes ++ suffix)) =
          (backs, stop) ∧
        stop.fault = none ∧ stop.bytes = d.bytes ∧ backs.length = entry.slots.length ∧
        ∀ i slot op, entry.slots[i]? = some slot → ops[i]? = some op →
          ∃ back, backs[i]? = some back ∧ m.Returned entry slot op
            (-(m.cellsBehind d.bytes.length (chunks.drop (i + 1)).flatten.length : Nat)) back := by
  obtain ⟨size, pieces, base, bears, fine, bytes, settled⟩ :=
    exists_finished separable count known laid clean
  obtain ⟨state, place, quiet, whole⟩ := ahead_of_finished address separable bears bytes suffix
  obtain ⟨backs, run, length, each⟩ := exists_decodeSlots_at bears fine state
  let start := m.decoding (m.foundAt (page, entry) (d.bytes ++ suffix)) address (d.bytes ++ suffix)
  let chunks := pieces.map (·.2.shown m.config base size .payload)
  rw [List.flatMap_def] at whole run
  have decoded : m.decodeOperands entry start = (backs, start.beyond chunks.flatten.length []) := by
    simp only [decodeOperands, readIndexes_eq separable.unindexed, separable.untidied]
    exact Prod.ext (congrArg Prod.fst run) (congrArg Prod.snd run)
  have rest : start.rest = chunks.flatten ++ suffix := by
    rw [state.rest, List.flatMap_def]
  refine ⟨start.bytes, chunks, whole, ?_, fun i slot here => ?_, backs, _, decoded, ?_, ?_, length, ?_⟩
  · rw [← bears.slots_eq]
    simp [chunks]
  · have wide (s : Slot Mode) (own : s ∈ entry.slots) : s.pos + s.width ≤ 32 := by
      have inside := separable.inside s own
      have short := separable.short
      omega
    rw [payload_eq_nil_iff bears fine separable.generic wide here, trails]
    cases m.extended slot <;> simp
  · exact quiet
  · simp only [Decoding.beyond, Decoding.past_bytes, rest, List.take_left']
    exact whole.symm
  · intro i slot op here written
    obtain ⟨back, found, returned⟩ := each i slot op here written
    have parts : chunks.flatten.length =
        (chunks.take (i + 1)).flatten.length + (chunks.drop (i + 1)).flatten.length := by
      rw [← List.length_append, ← List.flatten_append, List.take_append_drop]
    have total : d.bytes.length = start.bytes.length +
        ((chunks.take (i + 1)).flatten.length + (chunks.drop (i + 1)).flatten.length) := by
      rw [whole, List.length_append, parts]
    -- What has been read up to this operand is the instruction without the chunks behind it.
    have shift : (start.past (chunks.take (i + 1)).flatten.length).base - base =
        -(m.cellsBehind d.bytes.length (chunks.drop (i + 1)).flatten.length : Nat) := by
      rw [total] at settled ⊢
      refine (congrArg (_ - ·) settled).trans (base_past_sub page entry finish state.config place ?_)
      rw [rest, List.length_append, parts]
      omega
    exact ⟨back, found, shift ▸ returned⟩

theorem cellsBehind_zero (total : Nat) : m.cellsBehind total 0 = 0 := by
  simp [cellsBehind]

/-- Where no operand behind one has bytes behind the opcode, nothing stands behind that one. -/
theorem flatten_drop_eq_nil {page : Page Mode} {chunks : List (List UInt8)} {i : Nat}
    (places : chunks.length = entry.slots.length)
    (empty : ∀ i slot, entry.slots[i]? = some slot →
      (chunks[i]? = some [] ↔ m.trails page entry i slot = false))
    (last : ∀ j later, i < j → entry.slots[j]? = some later → m.trails page entry j later = false) :
    (chunks.drop (i + 1)).flatten = [] := by
  rw [List.flatten_eq_nil_iff]
  intro chunk member
  obtain ⟨k, inside⟩ := List.mem_iff_getElem?.mp member
  rw [List.getElem?_drop] at inside
  have bound : i + 1 + k < entry.slots.length := by
    rw [← places]
    exact (List.getElem?_eq_some_iff.mp inside).1
  have later := List.getElem?_eq_getElem bound
  have none := (empty _ _ later).mpr (last _ _ (by omega) later)
  exact Option.some.inj (inside.symm.trans none)

/-- Where displacements are measured from the end of the instruction, a target of fixed width that is
laid down without a fault comes back less the cells that stand behind its field. So it comes back right
exactly if these are a multiple of the address space, and in particular if no operand behind it has
bytes behind the opcode. -/
theorem decodeOperands_strays {page : Page Mode} {entry : Entry Mode}
    (separable : m.Separable page entry) (finish : m.config.origin = .finish)
    {ops : List (Operand Mode Reg)} {address : UInt32}
    (count : ops.length = entry.slots.length) (known : ∀ op ∈ ops, op.undefined = false)
    (clean : (m.encode page entry ops address).fault = none) (suffix : List UInt8) :
    let bytes := (m.encode page entry ops address).bytes
    ∃ (head : List UInt8) (chunks : List (List UInt8)), bytes = head ++ chunks.flatten ∧
      chunks.length = entry.slots.length ∧
      (∀ i slot, entry.slots[i]? = some slot →
        (chunks[i]? = some [] ↔ m.trails page entry i slot = false)) ∧
      ∃ backs stop, m.decodeOperands entry
          (m.decoding (m.foundAt (page, entry) (bytes ++ suffix)) address (bytes ++ suffix)) =
          (backs, stop) ∧
        stop.fault = none ∧ stop.bytes = bytes ∧ backs.length = entry.slots.length ∧
        ∀ i slot op width, entry.slots[i]? = some slot → ops[i]? = some op →
          m.shape slot.mode = .relative width →
          let behind := m.cellsBehind bytes.length (chunks.drop (i + 1)).flatten.length
          ∃ back, backs[i]? = some back ∧ back.mode = slot.mode ∧
            back.value = m.config.wrap (op.value - behind) ∧
            (back.value = m.config.wrap op.value ↔
              behind % twoPow (min m.config.addressBits 32) = 0) ∧
            ((∀ j later, i < j → entry.slots[j]? = some later → m.trails page entry j later = false) →
              back.value = m.config.wrap op.value) := by
  cases run : m.encodeOperands entry entry.slots ops (m.draft page entry address) with
  | mk d early =>
  have finished : (m.encode page entry ops address).bytes = d.bytes := by simp only [encode, run]
  obtain ⟨rfl, quiet⟩ : early = none ∧ d.fault? = none := by
    simp only [encode, run, Option.or_eq_none_iff] at clean
    exact clean.1
  obtain ⟨head, chunks, whole, places, empty, backs, stop, decoded, fine, taken, length, each⟩ :=
    exists_returned separable finish count known run quiet suffix
  rw [finished]
  refine ⟨head, chunks, whole, places, empty, backs, stop, decoded, fine, taken, length, ?_⟩
  intro i slot op width here written shape behind
  obtain ⟨back, found, returned⟩ := each i slot op here written
  obtain ⟨mode, value⟩ : back.mode = slot.mode ∧ back.value = m.config.wrap (op.value - behind) := by
    simpa only [Returned, measured, Recovered, shape, if_true, Int.add_neg_eq_sub] using returned
  have right : back.value = m.config.wrap op.value ↔
      behind % twoPow (min m.config.addressBits 32) = 0 := by
    rw [value, Config.wrap_sub_eq_iff]
  refine ⟨back, found, mode, value, right, fun last => right.mpr ?_⟩
  have nothing := flatten_drop_eq_nil places empty last
  simp only [behind, nothing, List.length_nil, cellsBehind_zero, Nat.zero_mod]

end Machine

/-- A word of constant before the target, and a register in the opcode behind it. -/
theorem Machine.decodeOperands_strays_last :
    let entry : Entry Trial.Mode := .of "LOOP" 0x80
      [.bare (.category [.imm] (.immediate .word)), .bare (.category [.long] (.relative .byte)),
        .field (.category [.reg] .register) 0 2]
    let page : Page Trial.Mode := { lead := [0xDD], entries := [entry] }
    let m := Trial.machine {} [page] (BitVec.allOnes 32) 4
    let ops : List (Operand Trial.Mode Trial.Reg) :=
      [{ mode := .form .imm, value := 0x1234, column := 5 },
        { mode := .form .long, value := 0x2010, column := 12 },
        { mode := .form .reg, reg := some 2, column := 18 }]
    let bytes := (m.encode page entry ops 0x2000).bytes
    bytes = [0xDD, 0x82, 0x34, 0x12, 0x0B] ∧
      ∃ backs stop back, m.decodeOperands entry
          (m.decoding (m.foundAt (page, entry) (bytes ++ [0x55])) 0x2000 (bytes ++ [0x55])) =
          (backs, stop) ∧ stop.bytes = bytes ∧ backs[1]? = some back ∧ back.value = 0x2010 := by
  intro entry page m ops bytes
  have separable : m.Separable page entry :=
    { unindexed := fun _ _ => rfl
      untidied := fun _ => rfl
      generic := by decide
      short := by decide
      disjoint := by decide
      inside := by decide
      apart := by decide
      signed := by decide
      gap := .inl rfl
      ladder := by decide
      registers := by
        intro s member field
        apply Trial.inverts
        have wide : ∀ s ∈ entry.slots, m.shape s.mode = .register ∨
            (m.inGap s = true ∧ 0 < s.width) → 4 ≤ twoPow s.width := by decide
        exact wide s member field }
  obtain ⟨head, chunks, -, -, -, backs, stop, decoded, -, taken, -, each⟩ :=
    decodeOperands_strays separable rfl rfl (by decide)
      (by decide : (m.encode page entry ops 0x2000).fault = none) [0x55]
  obtain ⟨back, found, -, -, -, last⟩ := each 1 _ _ .byte rfl rfl rfl
  refine ⟨by decide, backs, stop, back, decoded, taken, found, last fun j later behind slot => ?_⟩
  rcases j with _ | _ | _ | j
  · omega
  · omega
  · obtain rfl := Option.some.inj slot
    rfl
  · exact nomatch slot

/-- A target before a constant comes back one short of where it was written to. -/
theorem Machine.strays_before_constant :
    let entry : Entry Trial.Mode := .of "BRI" 0x20
      [.bare (.category [.short, .long] (.relative .byte)), .bare (.category [.imm] (.immediate .byte))]
    let page : Page Trial.Mode := { entries := [entry] }
    let m := Trial.machine {} [page] (BitVec.allOnes 32) 0
    let ops : List (Operand Trial.Mode Trial.Reg) :=
      [{ mode := .form .long, value := 272, column := 4 }, { mode := .form .imm, value := 5, column := 8 }]
    m.encode page entry ops 256 = ⟨256, [0x20, 0x0D, 0x05], none⟩ ∧
      (m.decodeOperands entry (m.decoding (m.foundAt (page, entry) [0x20, 0x0D, 0x05]) 256
        [0x20, 0x0D, 0x05])).1.map (·.value) = [271, 5] ∧
      (m.decode ∅ {} ⟨256, .byte, 0, [0x20, 0x0D, 0x05]⟩).1.text = "BRI 010FH,#5" := by
  decide

end CrossAsm

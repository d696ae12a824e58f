import CrossAsm.Proofs.FirstMatch

/-! An instruction that is decoded without a fault depends on its own bytes alone. What is read from
them is read in the same way whatever follows. The entry is the same too, if no entry that could be
taken instead looks further ahead than these bytes go. -/

namespace CrossAsm

namespace Decoding

/-- The same state with other bytes ahead. -/
def onto (d : Decoding) (rest : List UInt8) : Decoding := { d with rest }

section Onto

variable (d : Decoding) (rest : List UInt8)

@[simp] theorem onto_config : (d.onto rest).config = d.config := rfl

@[simp] theorem onto_address : (d.onto rest).address = d.address := rfl

@[simp] theorem onto_opcode : (d.onto rest).opcode = d.opcode := rfl

@[simp] theorem onto_gapBytes : (d.onto rest).gapBytes = d.gapBytes := rfl

@[simp] theorem onto_bytes : (d.onto rest).bytes = d.bytes := rfl

@[simp] theorem onto_rest : (d.onto rest).rest = rest := rfl

@[simp] theorem onto_fault : (d.onto rest).fault = d.fault := rfl

@[simp] theorem onto_self : d.onto d.rest = d := rfl

/-- Bytes that are ahead and are then passed over. -/
theorem past_onto {n : Nat} {used : List UInt8} (length : used.length = n) :
    (d.onto (used ++ rest)).past n = { d with bytes := d.bytes ++ used, rest } := by
  simp only [past, onto, List.take_left' length, List.drop_left' length]

end Onto

variable {α β : Type} {d : Decoding}

/-- What is read from a state without a fault depends on the bytes that are used for it: with
anything else behind them, the same is read, and just that is ahead. -/
structure Local (f : Decoding → α × Decoding) (d : Decoding) : Prop where
  follows : Follows d (f d).2
  same : (f d).2.fault = none → ∀ used, (f d).2.bytes = d.bytes ++ used → ∀ rest,
    f (d.onto (used ++ rest)) = ((f d).1, (f d).2.onto rest)

namespace Local

variable {f g : Decoding → α × Decoding}

theorem congr (reads : Local g d) (agree : ∀ rest, f (d.onto rest) = g (d.onto rest)) :
    Local f d := by
  have here : f d = g d := agree d.rest
  constructor
  · rw [here]
    exact reads.follows
  · rw [here]
    intro clean used bytes rest
    rw [agree]
    exact reads.same clean used bytes rest

/-- What uses no bytes has to do the same with all that may be ahead. -/
theorem still (follows : Follows d (f d).2) (unmoved : (f d).2.bytes = d.bytes)
    (steady : ∀ rest, f (d.onto rest) = ((f d).1, (f d).2.onto rest)) : Local f d where
  follows
  same _ used bytes rest := by
    obtain rfl : used = [] := by simpa [unmoved] using bytes
    exact steady rest

/-- Of what has a fault nothing is asked. -/
theorem faulty (follows : Follows d (f d).2) (fault : (f d).2.fault ≠ none) : Local f d :=
  ⟨follows, fun clean => absurd clean fault⟩

/-- What uses no bytes at all, whether or not it finds a fault. -/
theorem unread (follows : Follows d (f d).2) (steady : ∃ a, ∃ cause : Option Cause, ∀ rest,
    f (d.onto rest) = (a, cause.elim (d.onto rest) (d.onto rest).fail)) : Local f d := by
  obtain ⟨a, cause, each⟩ := steady
  have here : f d = (a, cause.elim d d.fail) := each d.rest
  cases cause with
  | none => exact .still follows (by rw [here]; rfl) fun rest => by rw [each, here]; rfl
  | some cause => exact .faulty follows (by rw [here]; exact d.fail_fault_ne_none cause)

/-- Two readings one behind the other. -/
theorem bind {next : α → Decoding → β × Decoding} (first : Local f d)
    (second : ∀ a d, Local (next a) d) : Local (fun d => next (f d).1 (f d).2) d where
  follows := first.follows.trans (second _ _).follows
  same clean used bytes rest := by
    -- for the first reading, what the second uses is part of what may follow
    obtain ⟨front, taken⟩ := first.follows.grows
    obtain ⟨back, more⟩ := (second (f d).1 (f d).2).follows.grows
    obtain rfl : used = front ++ back := by
      apply List.append_cancel_left
      rw [← bytes, ← more, ← taken, List.append_assoc]
    have started := first.same ((second _ _).follows.fault clean) front taken.symm (back ++ rest)
    simp only [List.append_assoc, started]
    exact (second _ _).same clean back more.symm rest

/-- What is made of a reading, and of the state behind it but not of the bytes ahead. -/
theorem map (reads : Local f d) (make : α → Decoding → β)
    (steady : ∀ a d rest, make a (onto d rest) = make a d) :
    Local (fun d => (make (f d).1 (f d).2, (f d).2)) d := by
  have made (a : α) (d : Decoding) : Local (fun d => (make a d, d)) d :=
    still (.refl d) rfl fun rest => by simp only [steady]
  exact reads.bind made

/-- A byte that is ahead may decide what is read behind it. -/
theorem behind {first : UInt8} {tail : List UInt8} (ahead : d.rest = first :: tail)
    (reads : Local g (d.past 1))
    (agree : ∀ rest, f (d.onto (first :: rest)) = g ((d.past 1).onto rest)) : Local f d := by
  have moved : (d.past 1).bytes = d.bytes ++ [first] := by simp [ahead]
  have here : f d = g (d.past 1) := by
    have both := agree tail
    rw [← ahead] at both
    rwa [show tail = (d.past 1).rest by simp [ahead], onto_self, onto_self] at both
  constructor
  · rw [here]
    exact (Follows.past d 1).trans reads.follows
  · rw [here]
    intro clean used bytes rest
    obtain ⟨more, taken⟩ := reads.follows.grows
    obtain rfl : used = first :: more := by
      apply List.append_cancel_left
      rw [← bytes, ← taken, moved, List.append_assoc, List.singleton_append]
    rw [List.cons_append, agree]
    exact reads.same clean more taken.symm rest

end Local

/-! ### Bytes and numbers -/

theorem take_local (n : Nat) (d : Decoding) : Local (take n) d where
  follows := take_follows d n
  same clean used bytes rest := by
    have enough := enough_of_take clean
    rw [take_eq d enough] at bytes ⊢
    obtain rfl : d.rest.take n = used := List.append_cancel_left bytes
    have length := List.length_take_of_le enough
    rw [take_eq _ (by simp [length]), onto_rest, List.take_left' length, past_onto d rest length]
    rfl

theorem byte_local (d : Decoding) : Local byte d :=
  ((take_local 1 d).map (fun bytes _ => bytes.headD 0) fun _ _ _ => rfl).congr fun _ => rfl

theorem readIn_local (e : Endian) (n : Nat) (d : Decoding) : Local (·.readIn e n) d :=
  (take_local n d).map (fun bytes _ => e.number bytes % 0x100000000) fun _ _ _ => rfl

theorem read_local (n : Nat) (d : Decoding) : Local (·.read n) d :=
  (readIn_local d.config.endian n d).congr fun _ => rfl

/-! ### Displacements -/

theorem readDisp_local (n : Nat) (d : Decoding) : Local (·.readDisp n) d := by
  by_cases room : n ≤ d.gapBytes.length
  · refine .still (readDisp_follows d n) ?_ fun rest => ?_
    · simp [readDisp, room]
    · simp only [readDisp, onto_gapBytes, room, if_true]
      rfl
  · exact (read_local n d).congr fun rest => readDisp_rest (d := d.onto rest) room

theorem readLadder_local (d : Decoding) : Local readLadder d := by
  have follows := readLadder_follows d
  cases ahead : d.rest with
  | nil =>
    refine .faulty follows ?_
    simpa only [readLadder, ahead] using fail_fault_ne_none d _
  | cons first tail =>
    cases found : d.config.ladder.find? (·.tags first) with
    | none =>
      refine .faulty follows ?_
      simpa only [readLadder, ahead, byte_cons ahead, past_config, found] using
        fail_fault_ne_none (d.past 1) _
    | some rung =>
      -- the first byte says how many more are read, and these with it whether the number is low
      let number (more : List UInt8) : Int := rung.decode (first :: more)
      let judged (more : List UInt8) (d : Decoding) : Int × Decoding :=
        (number more, if number more < rung.min then d.fail .illegalConstant else d)
      have judges (more : List UInt8) (d : Decoding) : Local (judged more) d := by
        by_cases low : number more < rung.min
        · refine .faulty ?_ ?_
          · simpa only [judged, if_pos low] using .fail d .illegalConstant
          · simpa only [judged, if_pos low] using fail_fault_ne_none d _
        · refine .still ?_ ?_ fun rest => ?_
          · simpa only [judged, if_neg low] using .refl d
          · simp only [judged, if_neg low]
          · simp only [judged, if_neg low]
      refine .behind ahead ((take_local (rung.bytes - 1) (d.past 1)).bind judges)
        fun rest => ?_
      have begins : (d.onto (first :: rest)).byte.2 = (d.past 1).onto rest := by
        simp [byte, onto, past, ahead]
      simp only [readLadder, onto_rest, begins, onto_config, past_config, found]
      rfl

end Decoding

namespace Machine

variable {Mode Reg : Type} {m : Machine Mode Reg} {entry : Entry Mode}

/-! ### Operands -/

/-- Reading an operand by the target's own rules depends on the bytes it uses. -/
def CustomLocal (m : Machine Mode Reg) : Prop :=
  ∀ entry slot index d, Decoding.Local (m.decodeCustom entry slot index) d

theorem CustomLocal.follows (custom : m.CustomLocal) : m.CustomFollows :=
  fun entry slot index d => (custom entry slot index d).follows

theorem decodeOperand_local (custom : m.CustomLocal) (slot : Slot Mode) (index : Option UInt8)
    (d : Decoding) : Decoding.Local (m.decodeOperand entry slot index) d := by
  have follows : Decoding.Follows d (m.decodeOperand entry slot index d).2 :=
    decodeOperand_follows custom.follows slot index d
  -- where the operand begins does not depend on what is ahead
  let op : Operand Mode Reg := { mode := slot.mode, column := d.bytes.length }
  cases shape : m.shape slot.mode with
  | implied | embedded signed | bit =>
    refine .unread follows ?_
    simp only [decodeOperand, shape, Decoding.onto_opcode, Decoding.onto_bytes]
    exact ⟨_, none, fun _ => rfl⟩
  | register =>
    refine .unread follows ?_
    simp only [decodeOperand, shape, Decoding.onto_opcode]
    split
    · exact ⟨_, none, fun _ => rfl⟩
    · exact ⟨_, some _, fun _ => rfl⟩
  | immediate width | absolute width =>
    cases sized : width.bytes? entry.size with
    | none =>
      refine .faulty follows ?_
      simpa only [decodeOperand, shape, sized] using d.fail_fault_ne_none _
    | some n =>
      refine ((Decoding.read_local n d).map (fun v _ => some { op with value := v })
        fun _ _ _ => rfl).congr fun rest => ?_
      simp only [decodeOperand, shape, sized]
      rfl
  | relative width =>
    cases sized : width.bytes? entry.size with
    | none =>
      refine .unread follows ?_
      simp only [decodeOperand, shape, sized]
      exact ⟨_, none, fun _ => rfl⟩
    | some n =>
      refine ((Decoding.read_local n d).map (fun v d =>
        some { op with value := d.target (signExtend v (8 * n)) }) fun _ _ _ => rfl).congr
        fun rest => ?_
      simp only [decodeOperand, shape, sized]
      rfl
  | indexed disp signed =>
    cases sized : disp.bytes? entry.size with
    | none =>
      refine .unread follows ?_
      simp only [decodeOperand, shape, sized, Decoding.onto_opcode]
      split
      · split
        · exact ⟨_, none, fun _ => rfl⟩
        · exact ⟨_, some _, fun _ => rfl⟩
      · exact ⟨_, none, fun _ => rfl⟩
    | some n =>
      -- which register it is, if any, is said by the opcode
      have reads (reg : Option Reg) := (Decoding.readDisp_local n d).map
        (fun v _ => some { op with reg, value := if signed then signExtend v (8 * n) else v })
        fun _ _ _ => rfl
      by_cases wide : 0 < slot.width
      · cases known : m.registerOperand slot.mode (slot.read d.opcode) with
        | some r =>
          refine (reads r.reg).congr fun rest => ?_
          simp only [decodeOperand, shape, sized, wide, if_true, Decoding.onto_opcode, known]
          rfl
        | none =>
          refine .faulty follows fun clean => ?_
          simp only [decodeOperand, shape, sized, wide, if_true, known] at clean
          exact d.fail_fault_ne_none _ ((Decoding.readDisp_follows _ n).fault clean)
      · refine (reads none).congr fun rest => ?_
        simp only [decodeOperand, shape, sized, wide, if_false]
        rfl
  | ladder relative =>
    refine (d.readLadder_local.map (fun v d =>
      some { op with value := if relative then d.target v else v }) fun _ _ _ => rfl).congr
      fun rest => ?_
    simp only [decodeOperand, shape]
    rfl
  | custom =>
    refine (custom entry slot index d).congr fun rest => ?_
    simp only [decodeOperand, shape]

theorem readIndexes_local (slots : List (Slot Mode)) (d : Decoding) :
    Decoding.Local (m.readIndexes slots) d := by
  induction slots generalizing d with
  | nil => exact .still (.refl d) rfl fun _ => rfl
  | cons slot slots ih =>
    -- the opcode alone says whether the slot has an index byte
    cases indexed : m.hasIndexByte slot.mode (slot.read d.opcode) with
    | true =>
      have reads (b : UInt8) (d : Decoding) :=
        (ih d).map (fun more _ => (slot, some b) :: more) fun _ _ _ => rfl
      refine (d.byte_local.bind reads).congr fun rest => ?_
      simp only [readIndexes, Decoding.onto_opcode, indexed, if_true]
    | false =>
      refine ((ih d).map (fun more _ => (slot, none) :: more) fun _ _ _ => rfl).congr fun rest => ?_
      simp only [readIndexes, Decoding.onto_opcode, indexed, Bool.false_eq_true, if_false]

theorem decodeSlots_local (custom : m.CustomLocal) (slots : List (Slot Mode × Option UInt8))
    (d : Decoding) : Decoding.Local (m.decodeSlots entry slots) d := by
  induction slots generalizing d with
  | nil => exact .still (.refl d) rfl fun _ => rfl
  | cons head slots ih =>
    have reads (op : Option (Operand Mode Reg)) (d : Decoding) :=
      (ih d).map (fun ops _ => op.toList ++ ops) fun _ _ _ => rfl
    exact (decodeOperand_local custom head.1 head.2 d).bind reads

theorem decodeOperands_local (custom : m.CustomLocal) (d : Decoding) :
    Decoding.Local (m.decodeOperands entry) d := by
  have reads (slots : List (Slot Mode × Option UInt8)) (d : Decoding) :
      Decoding.Local (fun d => (m.tidy (m.decodeSlots entry slots d).1,
        (m.decodeSlots entry slots d).2)) d :=
    (decodeSlots_local custom slots d).map (fun ops _ => m.tidy ops) fun _ _ _ => rfl
  exact (readIndexes_local entry.slots d).bind reads

/-! ### The entry that is found -/

section Search

variable (m) (hit : Page Mode × Entry Mode)

/-- Bytes that decide whether an entry matches: all up to the opcode, and the cell behind it if
there is a condition on that. -/
def reach : Nat :=
  m.headLength hit.1 + if hit.2.post.isSome then m.config.cell.bytes else 0

/-- No entry looks further ahead than the bytes of an instruction go that another entry, which
matches the same memory, is read from without a fault. -/
def Sighted : Prop :=
  ∀ hit ∈ m.ownEntries, ∀ other ∈ m.ownEntries, ∀ memory, m.hits memory hit = true →
    m.hits memory other = true → ∀ rest address, m.hits rest hit = true →
      (m.finish hit rest address).fault = none →
      m.reach other ≤ (m.finish hit rest address).bytes.length

variable {m hit}

/-- An entry without a condition looks no further than its opcode. -/
theorem reach_of_unconditional (free : hit.2.post = none) : m.reach hit = m.headLength hit.1 := by
  simp [reach, free]

/-- What an entry does not look at may be anything. -/
theorem hits_of_prefix {bytes tail : List UInt8} (within : m.reach hit ≤ bytes.length)
    (hits : m.hits (bytes ++ tail) hit = true) (other : List UInt8) :
    m.hits (bytes ++ other) hit = true := by
  obtain ⟨page, entry⟩ := hit
  rw [hits_iff] at hits ⊢
  obtain ⟨gap, opcode, behind, split, gapped, coded, fixed, post⟩ := hits
  have length : (page.lead ++ gap ++ opcode).length = m.headLength page := by
    simp only [List.length_append, gapped, coded, headLength, Nat.add_mul, Nat.add_assoc]
  have head : m.headLength page ≤ bytes.length := Nat.le_trans (Nat.le_add_right _ _) within
  -- all up to the opcode is among the bytes that stay
  obtain ⟨middle, rfl⟩ : page.lead ++ gap ++ opcode <+: bytes :=
    List.prefix_of_prefix_length_le ⟨behind, split.symm⟩ (List.prefix_append _ _) (length ▸ head)
  rw [List.append_assoc _ middle tail] at split
  obtain rfl := List.append_cancel_left split
  refine ⟨gap, opcode, middle ++ other, by simp, gapped, coded, fixed, fun holds condition => ?_⟩
  -- and so is the cell behind it, as there is a condition
  obtain ⟨cell, more, ahead, whole, met⟩ := post holds condition
  have room : cell.length ≤ middle.length := by
    simp only [reach, condition, Option.isSome_some, if_true] at within
    rw [List.length_append, length] at within
    omega
  obtain ⟨extra, rfl⟩ : cell <+: middle :=
    List.prefix_of_prefix_length_le ⟨more, ahead.symm⟩ (List.prefix_append _ _) room
  exact ⟨cell, extra ++ other, by simp, whole, met⟩

variable {rest : List UInt8} {address : UInt32}

theorem headLength_le_finish (custom : m.CustomFollows) (hits : m.hits rest hit = true) :
    m.headLength hit.1 ≤ (m.finish hit rest address).bytes.length := by
  have grows := (m.finish_follows hit rest address custom).grows.length_le
  have long : m.headLength hit.1 ≤ rest.length := by
    simp only [Machine.hits, Bool.and_eq_true, decide_eq_true_eq] at hits
    exact hits.1.1.2
  rwa [decoding, foundAt, List.length_take_of_le long] at grows

/-- The same entry is found wherever the bytes of its instruction are ahead. -/
theorem find?_of_prefix (custom : m.CustomFollows) (sighted : m.Sighted)
    (found : m.ownEntries.find? (m.hits rest) = some hit)
    (clean : (m.finish hit rest address).fault = none) (other : List UInt8) :
    m.ownEntries.find? (m.hits ((m.finish hit rest address).bytes ++ other)) = some hit := by
  have own := List.mem_of_find?_eq_some found
  obtain ⟨hits, before, after, entries, earlier⟩ := List.find?_eq_some_iff_append.mp found
  have whole := m.finish_append hit rest address custom
  have matched : m.hits ((m.finish hit rest address).bytes ++ other) hit = true := by
    have within := sighted hit own hit own rest hits hits rest address hits clean
    exact hits_of_prefix within (whole.symm ▸ hits) other
  refine List.find?_eq_some_iff_append.mpr ⟨matched, before, after, entries, fun e member => ?_⟩
  rw [Bool.not_eq_true', ← Bool.not_eq_true]
  intro late
  -- an earlier entry that matches here would have matched the first memory too
  have among : e ∈ m.ownEntries := by simp [entries, member]
  have within := sighted hit own e among _ matched late rest address hits clean
  have soon := hits_of_prefix within late (m.finish hit rest address).rest
  rw [whole] at soon
  simpa [soon] using earlier e member

end Search

/-! ### The instruction -/

section Instruction

variable {hit : Page Mode × Entry Mode} {rest : List UInt8} {address : UInt32}

theorem decodeOperands_eq :
    m.decodeOperands hit.2 (m.decoding (m.foundAt hit rest) address rest) =
      (m.tidy ((m.course hit rest address).filterMap (·.operand)), m.finish hit rest address) := by
  simp only [decodeOperands, decodeSlots_eq]
  rfl

/-- The operands of an entry are the same wherever the bytes of its instruction are ahead. -/
theorem decodeOperands_of_prefix (custom : m.CustomLocal) (hits : m.hits rest hit = true)
    (clean : (m.finish hit rest address).fault = none) (other : List UInt8) :
    let ahead := (m.finish hit rest address).bytes ++ other
    m.tidy ((m.course hit ahead address).filterMap (·.operand)) =
        m.tidy ((m.course hit rest address).filterMap (·.operand)) ∧
      m.finish hit ahead address = (m.finish hit rest address).onto other := by
  intro ahead
  have follows := m.finish_follows hit rest address custom.follows
  have reads : Decoding.Local (m.decodeOperands hit.2)
      (m.decoding (m.foundAt hit rest) address rest) := decodeOperands_local custom _
  obtain ⟨used, taken⟩ := follows.grows
  have same := reads.same (by rwa [decodeOperands_eq]) used (by rw [decodeOperands_eq, taken]) other
  -- the state behind the opcode is the same but for the bytes ahead
  have start : (m.decoding (m.foundAt hit rest) address rest).onto (used ++ other) =
      m.decoding (m.foundAt hit ahead) address ahead := by
    obtain ⟨gap, opcode, tail, rfl, gapped, coded⟩ := m.split_of_hits hits
    rw [m.decoding_append hit address tail gapped coded] at taken ⊢
    have begins : ahead = hit.1.lead ++ gap ++ opcode ++ (used ++ other) := by
      rw [← List.append_assoc, taken]
    rw [begins, m.decoding_append hit address _ gapped coded]
    rfl
  rw [start, decodeOperands_eq, decodeOperands_eq] at same
  exact Prod.mk.inj same

theorem decode_of_prefix (custom : m.CustomLocal) (sighted : m.Sighted) (symbols : Symbols)
    (style : Style) {r s : Reader} (place : s.address = r.address)
    (clean : (m.decode symbols style r).1.fault = none)
    (ahead : (m.decode symbols style r).1.bytes <+: s.rest) :
    (m.decode symbols style s).1 = (m.decode symbols style r).1 := by
  obtain ⟨hit, found⟩ := exists_hit_of_decode clean
  rw [decode_eq symbols style found] at clean ahead ⊢
  obtain ⟨other, begins⟩ := ahead
  -- the second reader finds the same entry and reads the same operands
  have again := find?_of_prefix custom.follows sighted found clean other
  obtain ⟨operands, finish⟩ := decodeOperands_of_prefix custom (List.find?_some found) clean other
  rw [begins] at again operands finish
  rw [decode_eq symbols style again, place, operands, finish]
  rfl

/-- An instruction without a fault is passed over with the bytes it has. -/
theorem decode_moves (custom : m.CustomFollows) (symbols : Symbols) (style : Style) {r : Reader}
    (clean : (m.decode symbols style r).1.fault = none) :
    let size := (m.decode symbols style r).1.bytes.length
    (m.decode symbols style r).2 =
      { r with offset := r.offset + size, rest := r.rest.drop size } := by
  obtain ⟨hit, found⟩ := exists_hit_of_decode clean
  rw [decode_eq symbols style found]
  have inside : (m.finish hit r.rest r.address).bytes.length ≤ r.rest.length :=
    List.IsPrefix.length_le ⟨_, m.finish_append hit r.rest r.address custom⟩
  simp only [Reader.skip, Nat.min_eq_left inside]

end Instruction

end Machine

end CrossAsm

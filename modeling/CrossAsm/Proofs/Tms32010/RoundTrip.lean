import CrossAsm.Proofs.Recovery
import CrossAsm.Proofs.Tms32010.Word
import CrossAsm.Target

/-! Decoding an instruction of the TMS32010 and assembling its text gives its bytes back. What is
decoded is the longest form of the instruction; what is written is the form with the operands that
are there, and both have the same word. -/

namespace CrossAsm.Tms32010

open Text

/-! ### Instructions of one word -/

/-- The slots of a word are read one by one from the same state. -/
theorem readings_still {entry : Entry Mode} {slots : List (Slot Mode)} {d : Decoding}
    (inWord : ∀ s ∈ slots, s.mode ≠ .pma)
    (clean : (machine.stopOf entry
      (machine.readings entry (slots.map fun s => (s, none)) d) d).fault = none) :
    machine.readings entry (slots.map fun s => (s, none)) d = slots.map (⟨·, none, d⟩) ∧
      machine.stopOf entry (machine.readings entry (slots.map fun s => (s, none)) d) d = d ∧
      ∀ s ∈ slots, (machine.decodeOperand entry s none d).2.fault = none := by
  induction slots with
  | nil => exact ⟨rfl, rfl, by simp⟩
  | cons slot slots ih =>
    have later := @Machine.stopOf_follows _ _ machine entry customFollows
      (slots.map fun s => (s, none)) (machine.decodeOperand entry slot none d).2
    have first : (machine.decodeOperand entry slot none d).2.fault = none := later.fault clean
    have still := stop_of_clean (inWord slot (by simp)) first
    simp only [List.map_cons, Machine.readings, Machine.stopOf, Reading.stop, still] at clean ⊢
    obtain ⟨readings, stop, each⟩ := ih (fun s member => inWord s (by simp [member])) clean
    refine ⟨by rw [readings], stop, ?_⟩
    intro s member
    rcases List.mem_cons.mp member with rfl | behind
    · exact first
    · exact each s behind

/-- The first match of an instruction on memory is its longest form. -/
theorem full_or_plain {rest : List UInt8} {hit : Page Mode × Entry Mode}
    (found : machine.ownEntries.find? (machine.hits rest) = some hit) :
    isFull hit = true ∨ ∀ s ∈ hit.2.slots, s.mode ≠ .mem ∧ isShift s.mode = false := by
  have own := List.mem_of_find?_eq_some found
  have hits := List.find?_some found
  cases full : isFull hit with
  | true => exact .inl rfl
  | false =>
    refine .inr ?_
    rcases exists_fuller own full with plain | ⟨other, present, longer, name, opcode, slots⟩
    · exact plain
    · -- The longer form covers the word too, and no form without a pointer stands before it.
      exfalso
      obtain ⟨code, tail, rfl, two, covered, -⟩ := exists_start own hits 0
      have matched : machine.hits (code ++ tail) other = true := by
        rw [hits_word present tail two]
        exact Entry.covers_of_subset opcode slots (opcode_apart present) covered
      rcases eq_or_related_of_find? (table_ordered.filter _) found present matched with same | before
      · rw [same, longer] at full
        exact absurd full (by decide)
      · simp [name, full, longer] at before

/-- The name and as many operands as it takes lead to a form of an instruction. -/
theorem findByName_form {hit : Page Mode × Entry Mode} (own : hit ∈ machine.ownEntries)
    {name : String} (same : upper name = hit.2.name) {ops : List (Operand Mode Reg)}
    (accepted : List.Forall₂ (fun slot op => accepts slot.mode op.mode = true) hit.2.slots ops) :
    machine.findByName name ops = .ok hit := by
  obtain ⟨first, -, found, named, admitted, order⟩ := machine.findByName_eq_ok table_ordered own
    same (machine.admits_of_forall₂ accepted)
  rcases order with rfl | before
  · exact found
  · have length : first.2.slots.length = hit.2.slots.length :=
      (Machine.forall₂_of_admits admitted).length_eq.trans accepted.length_eq.symm
    simp [named, length] at before

/-! ### The word -/

section Word

variable {entry : Entry Mode} {d : Decoding}

/-- Is the operand of the slot written, where no next register is named? -/
def keeps (word : BitVec 32) (slot : Slot Mode) : Bool :=
  slot.mode != .narp && !(isShift slot.mode && slot.read word == 0)

/-- As long as the pointer is kept, every operand goes back to the bits it was read from. -/
theorem place_fieldOf {slot : Slot Mode} (proper : Proper slot)
    (clean : (machine.decodeOperand entry slot none d).2.fault = none)
    (kept : slot.mode = .mem → pointed d.opcode = false) :
    slot.place (fieldOf d.opcode slot) =
      slot.place (BitVec.ofNat 32 (slot.read d.opcode)) := by
  by_cases memory : slot.mode = .mem ∧ codeOf d.opcode &&& indirect ≠ 0
  · obtain rfl := proper.memory memory.1
    rcases decode_mem memory.1 clean with ⟨direct, -⟩ | ⟨step, marked, known, -⟩
    · exact absurd direct memory.2
    · obtain ⟨-, same, -⟩ := indirect_code d.opcode known marked
      rw [fieldOf, if_pos memory, known, Option.getD_some, same (kept rfl), read_mem,
        BitVec.ofNat_toNat, BitVec.setWidth_eq]
  · rw [fieldOf, if_neg memory]

/-- The form with the operands that are written has the word that was read. -/
theorem word_of_kept {slots : List (Slot Mode)} (proper : ∀ s ∈ slots, Proper s)
    (clean : ∀ s ∈ slots, (machine.decodeOperand entry s none d).2.fault = none)
    (kept : ∀ s ∈ slots, s.mode = .mem → pointed d.opcode = false) {opcode : BitVec 32}
    (whole : opcode ||| placeAll (slots.map fun s => (s, BitVec.ofNat 32 (s.read d.opcode))) =
      d.opcode) :
    opcode ||| placeAll ((slots.filter (keeps d.opcode)).map fun s => (s, fieldOf d.opcode s)) =
      d.opcode := by
  have same := placeAll_congr fun s member =>
    place_fieldOf (proper s member) (clean s member) (kept s member)
  rw [placeAll_filter, same, whole]
  intro s member dropped
  rw [place_fieldOf (proper s member) (clean s member) (kept s member)]
  by_cases next : s.mode = .narp
  · rw [(proper s member).next next]
    exact Slot.place_of_width_zero rfl _
  · have zero : s.read d.opcode = 0 := by
      simp only [keeps, Bool.and_eq_false_iff, bne_eq_false_iff_eq, next, false_or,
        Bool.not_eq_false', Bool.and_eq_true, beq_iff_eq] at dropped
      exact dropped.2
    rw [zero]
    exact s.place_zero

/-- Only a memory operand may go back to other bits than it was read from, and these are all in the
low byte. -/
theorem high_fieldOf {slot : Slot Mode} (proper : Proper slot) :
    slot.place (fieldOf d.opcode slot) &&& ~~~0xFF =
      slot.place (BitVec.ofNat 32 (slot.read d.opcode)) &&& ~~~0xFF := by
  by_cases memory : slot.mode = .mem
  · obtain rfl := proper.memory memory
    have outside (field : BitVec 32) : mem.place field &&& ~~~0xFF = 0#32 := by
      have mask : mem.mask &&& ~~~0xFF = 0#32 := by decide
      rw [← Slot.place_and_mask, BitVec.and_assoc, mask, BitVec.and_zero]
    rw [outside, outside]
  · rw [fieldOf, if_neg (fun both => memory both.1)]

theorem high_placeAll {slots : List (Slot Mode)} (proper : ∀ s ∈ slots, Proper s) :
    placeAll (slots.map fun s => (s, fieldOf d.opcode s)) &&& ~~~0xFF =
      placeAll (slots.map fun s => (s, BitVec.ofNat 32 (s.read d.opcode))) &&& ~~~0xFF := by
  induction slots with
  | nil => rfl
  | cons slot slots ih =>
    simp only [List.map_cons, placeAll, BitVec.and_or_distrib_right, high_fieldOf (proper slot (by simp)),
      ih fun s member => proper s (by simp [member])]

/-- Naming the next register restores the low byte of the word that was read. -/
theorem word_of_pointed {hit : Page Mode × Entry Mode} (own : hit ∈ machine.ownEntries)
    (full : isFull hit = true) (covered : hit.2.covers d.opcode = true)
    (clean : (machine.decodeOperand hit.2 mem none d).2.fault = none)
    (names : pointed d.opcode = true) :
    (hit.2.opcode ||| placeAll (hit.2.slots.map fun s => (s, fieldOf d.opcode s))) &&&
        ~~~keepPointer ||| codeOf d.opcode &&& 1 = d.opcode := by
  have marked : codeOf d.opcode &&& indirect ≠ 0 := by
    simp only [pointed, Bool.and_eq_true, bne_iff_ne] at names
    exact names.1
  obtain ⟨step, known⟩ : ∃ step, step? (codeOf d.opcode) = some step := by
    rcases decode_mem rfl clean with ⟨direct, -⟩ | ⟨step, -, known, -⟩
    · exact absurd direct marked
    · exact ⟨step, known⟩
  obtain ⟨small, -, restored⟩ := indirect_code d.opcode known marked
  have field : fieldOf d.opcode mem = indirectCode step := by
    rw [fieldOf, if_pos ⟨rfl, marked⟩, known, Option.getD_some]
  have fits := entryFits_of_own own
  generalize laid : hit.2.opcode ||| placeAll (hit.2.slots.map fun s => (s, fieldOf d.opcode s)) =
    word
  -- The low byte holds the code of the step, everything above it what was read.
  have low : word &&& 0xFF = indirectCode step := by
    have read := Entry.read_opcode_placeAll (Machine.fieldsApart_of_entryFits fits)
      (by have short := Machine.opcodeLength_le_of_entryFits fits; omega)
      (by simp [Function.comp_def])
      (List.mem_map_of_mem (f := fun s => (s, fieldOf d.opcode s)) (mem_of_full own full))
    have byte : (indirectCode step).toNat % twoPow mem.width = (indirectCode step).toNat := by
      obtain rfl | rfl | rfl : step = 0 ∨ step = 1 ∨ step = 2 := by omega
      all_goals decide
    rw [laid, read_mem, field, byte] at read
    exact BitVec.eq_of_toNat_eq read
  have high : word &&& ~~~0xFF = d.opcode &&& ~~~0xFF := by
    have whole := Entry.eq_placeAll_of_covers covered
    have above := high_placeAll (d := d) fun s member => proper_of_own own (s := s) member
    rw [← laid, BitVec.and_or_distrib_right, above, ← BitVec.and_or_distrib_right, whole]
  have outside : ~~~(0xFF : BitVec 32) &&& ~~~keepPointer = ~~~0xFF := by decide
  have parts (w : BitVec 32) : w &&& ~~~0xFF ||| w &&& 0xFF = w := by
    rw [← BitVec.and_or_distrib_left]
    have all : ~~~(0xFF : BitVec 32) ||| 0xFF = BitVec.allOnes 32 := by decide
    rw [all, BitVec.and_allOnes]
  calc word &&& ~~~keepPointer ||| codeOf d.opcode &&& 1
    _ = (d.opcode &&& ~~~0xFF ||| indirectCode step) &&& ~~~keepPointer |||
          codeOf d.opcode &&& 1 := by rw [← high, ← low, parts]
    _ = d.opcode &&& ~~~0xFF &&& ~~~keepPointer |||
          (indirectCode step &&& ~~~keepPointer ||| codeOf d.opcode &&& 1) := by
      rw [BitVec.and_or_distrib_right, BitVec.or_assoc]
    _ = d.opcode &&& ~~~0xFF ||| codeOf d.opcode := by
      rw [restored names, BitVec.and_assoc, outside]
    _ = d.opcode := parts d.opcode

end Word

/-! ### The forms of an instruction -/

section Forms

variable {hit : Page Mode × Entry Mode} (own : hit ∈ machine.ownEntries) {d : Decoding}

include own

/-- The operands that are written where no next register is named make up a form of their own. -/
theorem exists_kept_form
    (plain : isFull hit = true ∨ ∀ s ∈ hit.2.slots, s.mode ≠ .mem ∧ isShift s.mode = false) :
    ∃ other ∈ machine.ownEntries, other.2.name = hit.2.name ∧ other.2.opcode = hit.2.opcode ∧
      other.2.slots = hit.2.slots.filter (keeps d.opcode) := by
  cases full : isFull hit with
  | false =>
    have free := plain.resolve_left (by simp [full])
    refine ⟨hit, own, rfl, rfl, ?_⟩
    symm
    rw [List.filter_eq_self]
    intro s member
    simp [keeps, pointerless_of_not_full own full member, (free s member).2]
  | true =>
    obtain ⟨split, pointerless⟩ := split_of_full own full
    apply exists_form own full
    have init : hit.2.slots.filter (keeps d.opcode) =
        hit.2.slots.dropLast.filter (keeps d.opcode) := by
      have last : keeps d.opcode pointer = false := rfl
      conv_lhs => rw [split]
      simp [List.filter_append, last]
    rw [init]
    by_cases dropped : ∃ s ∈ hit.2.slots.dropLast, isShift s.mode = true ∧ s.read d.opcode = 0
    · right
      obtain ⟨s, member, shift, zero⟩ := dropped
      apply List.filter_congr
      intro t present
      cases other : isShift t.mode with
      | false => simp [keeps, pointerless t present, other]
      | true =>
        have same := eq_of_isShift own (List.mem_of_mem_dropLast present)
          (List.mem_of_mem_dropLast member) other shift
        simp [keeps, same, shift, zero]
    · left
      rw [List.filter_eq_self]
      intro t present
      cases shift : isShift t.mode with
      | false => simp [keeps, pointerless t present, shift]
      | true =>
        have written : t.read d.opcode ≠ 0 := fun zero => dropped ⟨t, present, shift, zero⟩
        simp [keeps, pointerless t present, written]

variable {rendering : Rendering}

/-- A slot of the form, with an operand that is read as the one decoded. -/
def Reads (rendering : Rendering) (d : Decoding) (slot : Slot Mode) (q : Operand Mode Reg) : Prop :=
  ∃ op column, Restores slot d.opcode rendering op ∧ q = { echo op with column }

omit own in
theorem reads_of_moved {slots : List (Slot Mode)} {ops read : List (Operand Mode Reg)}
    (restores : List.Forall₂ (fun s op => Restores s d.opcode rendering op) slots ops)
    (moved : List.Forall₂ Operand.Moved (ops.map echo) read) :
    List.Forall₂ (Reads rendering d) slots read := by
  refine Operand.forall₂_moved ?_ ?_ moved
  · rintro s q column ⟨op, _, restored, rfl⟩
    exact ⟨op, column, restored, rfl⟩
  · rw [List.forall₂_map_right_iff]
    exact restores.imp fun s op restored => ⟨op, 0, restored, rfl⟩

omit own in
theorem parses_of_restores {slots : List (Slot Mode)} {ops : List (Operand Mode Reg)}
    (restores : List.Forall₂ (fun s op => Restores s d.opcode rendering op) slots ops) :
    List.Forall₂ (machine.ParsesAs rendering.scope)
      ((ops.map (formatOperand rendering)).map String.toList) (ops.map echo) := by
  simp only [List.map_map, List.forall₂_map_left_iff, List.forall₂_map_right_iff]
  induction restores with
  | nil => exact .nil
  | cons first _ ih => exact .cons first.parses ih

omit own in
theorem accepts_of_reads {slots : List (Slot Mode)} {read : List (Operand Mode Reg)}
    (reads : List.Forall₂ (Reads rendering d) slots read) :
    List.Forall₂ (fun slot op => accepts slot.mode op.mode = true) slots read :=
  reads.imp fun _ _ ⟨_, _, restored, same⟩ => same ▸ restored.accepted

omit own in
theorem encodeOperands_reads {entry : Entry Mode} {slots : List (Slot Mode)}
    {read : List (Operand Mode Reg)} (reads : List.Forall₂ (Reads rendering d) slots read)
    {draft : Draft} (config : draft.config = machine.config) :
    machine.encodeOperands entry slots read draft =
      (draft.setOpcode (draft.opcode |||
        placeAll (slots.map fun s => (s, fieldOf d.opcode s))), none) :=
  encodeOperands_fields (reads.imp fun _ _ ⟨_, column, restored, same⟩ room =>
    same ▸ restored.lays entry column room) config

omit own in
/-- Where the next register is named, the operand in memory is read back as one by a register. -/
theorem any_ind_of_pointed (texas : rendering.config = config) {slots : List (Slot Mode)}
    {ops read : List (Operand Mode Reg)} (memory : mem ∈ slots)
    (decoded : List.Forall₂ (fun s op => (machine.decodeOperand hit.2 s none d).1 = some op) slots ops)
    (clean : (machine.decodeOperand hit.2 mem none d).2.fault = none)
    (names : pointed d.opcode = true) (moved : List.Forall₂ Operand.Moved (ops.map echo) read) :
    read.any (·.mode == .ind) = true := by
  obtain ⟨op, present, found⟩ := exists_right_of_forall₂ decoded memory
  obtain ⟨other, again, -, marked⟩ := @restores_mem hit.2 mem d rendering texas rfl clean
  obtain rfl : other = op := Option.some.inj (again.symm.trans found)
  have mode : other.mode = .ind := by
    simp only [pointed, Bool.and_eq_true, bne_iff_ne] at names
    exact marked.mpr names.1
  obtain ⟨q, member, same⟩ :=
    exists_right_of_forall₂ moved (List.mem_map_of_mem (f := echo) present)
  rw [List.any_eq_true]
  refine ⟨q, member, ?_⟩
  rw [show q = _ from same]
  simp [echo, mode]

/-- The next register behind the other operands completes the word. -/
theorem encodeOperands_pointed (full : isFull hit = true) (covered : hit.2.covers d.opcode = true)
    (clean : (machine.decodeOperand hit.2 mem none d).2.fault = none)
    (names : pointed d.opcode = true) {front : List (Operand Mode Reg)}
    (reads : List.Forall₂ (Reads rendering d) hit.2.slots.dropLast front) {q : Operand Mode Reg}
    (value : q.value = (codeOf d.opcode &&& 1).toNat) (page : Page Mode) (address : UInt32) :
    machine.encodeOperands hit.2 hit.2.slots (front ++ [q]) (machine.draft page hit.2 address) =
      ((machine.draft page hit.2 address).setOpcode d.opcode, none) := by
  obtain ⟨split, -⟩ := split_of_full own full
  have fits : fitsUnsigned q.value 1 = true := by
    have bit : (codeOf d.opcode &&& 1).toNat < 2 := by
      rw [BitVec.toNat_and]
      exact Nat.lt_of_le_of_lt Nat.and_le_right (by decide)
    rw [fitsUnsigned_iff (by decide), value]
    exact ⟨by omega, by exact_mod_cast bit⟩
  have bits : BitVec.ofInt 32 q.value = codeOf d.opcode &&& 1 := by
    rw [value, BitVec.ofInt_natCast, BitVec.ofNat_toNat, BitVec.setWidth_eq]
  have word := word_of_pointed own full covered clean names
  -- The slot of the next register has no field of its own.
  have last : placeAll ([pointer].map fun s => (s, fieldOf d.opcode s)) = 0#32 := by
    rw [List.map_singleton, placeAll, Slot.place_of_width_zero rfl]
    rfl
  rw [split, List.map_append, placeAll_append, last, BitVec.or_zero, ← bits] at word
  conv_lhs => rw [split]
  rw [Machine.encodeOperands_append reads.length_eq, encodeOperands_reads reads rfl]
  simp only [Machine.encodeOperands, encode_pointer, fits, if_true]
  exact congrArg (fun word => ((machine.draft page hit.2 address).setOpcode word, none)) word

/-- Operands that are written where no next register is named. -/
theorem tidy_kept (texas : rendering.config = config)
    (clean : ∀ s ∈ hit.2.slots, (machine.decodeOperand hit.2 s none d).2.fault = none)
    (inWord : ∀ s ∈ hit.2.slots, s.mode ≠ .pma)
    (kept : pointed d.opcode = false ∨ isFull hit = false) :
    ∃ ops, List.Forall₂ (fun s op => Restores s d.opcode rendering op)
        (hit.2.slots.filter (keeps d.opcode)) ops ∧
      tidy (hit.2.slots.filterMap fun s => (machine.decodeOperand hit.2 s none d).1) = ops := by
  have each (s : Slot Mode) (member : s ∈ hit.2.slots) (other : s.mode ≠ .narp) :=
    exists_restores texas (proper_of_own own member) (inWord s member) other (clean s member)
  have next (s : Slot Mode) (member : s ∈ hit.2.slots) (mode : s.mode = .narp) :
      (machine.decodeOperand hit.2 s none d).1 = none := by
    rcases kept with free | bare
    · rw [decode_pointer mode, free]
      rfl
    · exact absurd mode (pointerless_of_not_full own bare member)
  obtain ⟨ops, related⟩ : ∃ ops, List.Forall₂ (fun s op =>
      (machine.decodeOperand hit.2 s none d).1 = some op ∧ Restores s d.opcode rendering op)
      (hit.2.slots.filter (keeps d.opcode)) ops := by
    apply exists_forall₂
    intro s member
    obtain ⟨present, keeping⟩ := List.mem_filter.mp member
    simp only [keeps, Bool.and_eq_true, bne_iff_ne] at keeping
    exact each s present keeping.1
  refine ⟨ops, related.imp fun _ _ both => both.2, ?_⟩
  -- Shifts by zero are left out only where no next register is named.
  have unnamed : (hit.2.slots.filterMap fun s =>
      (machine.decodeOperand hit.2 s none d).1).any (·.mode == .narp) = false := by
    simp only [List.any_eq_false, List.mem_filterMap, beq_iff_eq]
    rintro op ⟨s, member, read⟩
    by_cases mode : s.mode = .narp
    · simp [next s member mode] at read
    · obtain ⟨found, decoded, restored⟩ := each s member mode
      obtain rfl := Option.some.inj (decoded.symm.trans read)
      exact restored.unnamed
  have tidied (ops : List (Operand Mode Reg)) : tidy ops = if ops.any (·.mode == .narp) then ops
      else ops.filter fun op => !(isShift op.mode && op.value == 0) := rfl
  rw [tidied, unnamed, ← filterMap_of_forall₂ (related.imp fun _ _ both => both.1)]
  simp only [Bool.false_eq_true, if_false, List.filter_filterMap, List.filterMap_filter]
  apply List.filterMap_congr
  intro s member
  by_cases mode : s.mode = .narp
  · simp [next s member mode]
  · obtain ⟨op, decoded, restored⟩ := each s member mode
    have same := restored.shift
    rw [decoded]
    cases shift : isShift s.mode with
    | false => simp [keeps, mode, same, shift]
    | true =>
      have zero := restored.zero shift
      by_cases empty : s.read d.opcode = 0
      · simp [keeps, same, shift, empty, zero.mpr empty]
      · have value : op.value ≠ 0 := fun dropped => empty (zero.mp dropped)
        simp [keeps, mode, empty, value]

end Forms

/-! ### Decoding and assembling -/

section Assemble

variable (style : Style) {r : Reader} {hit : Page Mode × Entry Mode}
  (found : machine.ownEntries.find? (machine.hits r.rest) = some hit)
  (clean : (machine.finish hit r.rest r.address).fault = none)

include found clean

/-- A word with its operands, in the state in which all of them are read. -/
theorem exists_word (inWord : ∀ s ∈ hit.2.slots, s.mode ≠ .pma) :
    ∃ d : Decoding, hit.2.covers d.opcode = true ∧ machine.finish hit r.rest r.address = d ∧
      Endian.big.put 2 d.opcode.toNat = d.bytes ∧
      (∀ s ∈ hit.2.slots, (machine.decodeOperand hit.2 s none d).2.fault = none) ∧
      (machine.course hit r.rest r.address).filterMap (·.operand) =
        hit.2.slots.filterMap fun s => (machine.decodeOperand hit.2 s none d).1 := by
  have own := List.mem_of_find?_eq_some found
  obtain ⟨code, tail, rest, two, covered, start⟩ :=
    exists_start own (List.find?_some found) r.address
  simp only [Machine.finish, Machine.course, start] at clean ⊢
  obtain ⟨readings, stop, each⟩ := readings_still inWord clean
  refine ⟨_, covered, stop, ?_, each, ?_⟩
  · have back := @Endian.put_number Endian.big code (by omega)
    have small : Endian.big.number code < 0x100000000 := Endian.big.number_lt_word (by omega)
    rw [two] at back
    rw [BitVec.toNat_ofNat, Nat.mod_eq_of_lt small]
    exact back
  · rw [readings, List.filterMap_map]
    rfl

/-- An instruction that names no next register. -/
theorem assemble_kept (inWord : ∀ s ∈ hit.2.slots, s.mode ≠ .pma)
    (kept : ∀ d, machine.finish hit r.rest r.address = d →
      pointed d.opcode = false ∨ isFull hit = false) :
    machine.assemble ∅ (machine.decode ∅ style r).1.text r.address =
      ⟨r.address, (machine.finish hit r.rest r.address).bytes, none⟩ := by
  have own := List.mem_of_find?_eq_some found
  obtain ⟨d, covered, finished, written, each, read⟩ := exists_word found clean inWord
  have free := kept d finished
  let rendering := machine.rendering ∅ style r.address
  obtain ⟨ops, restores, tidied⟩ := @tidy_kept hit own d rendering rfl each inWord free
  obtain ⟨other, present, name, opcode, slots⟩ := exists_kept_form own (d := d) (full_or_plain found)
  obtain ⟨lead, -, cells, -⟩ := page_of_own present
  have memory (s : Slot Mode) (member : s ∈ hit.2.slots) (mode : s.mode = .mem) :
      pointed d.opcode = false := by
    rcases free with unpointed | bare
    · exact unpointed
    · rcases full_or_plain found with full | plain
      · exact absurd (full.symm.trans bare) (by decide)
      · exact absurd mode (plain s member).1
  have word := word_of_kept (fun s member => proper_of_own own member) each memory
    (Entry.eq_placeAll_of_covers covered)
  rw [finished, ← written]
  refine Machine.assemble_text_eq ∅ style found (name_of_own own)
    (?_ : List.Forall₂ _ _ (ops.map echo)) ?_
  · rw [read]
    change List.Forall₂ _ (((tidy _).map (formatOperand rendering)).map _) _
    rw [tidied]
    exact parses_of_restores restores
  · intro back moved silent mnemonic same
    have reads := reads_of_moved restores moved
    rw [← slots] at reads word
    refine ⟨other, findByName_form present (same.trans name.symm) (accepts_of_reads reads), ?_, ?_⟩
    · change check other.2 back = none
      have unnamed : other.2.slots.any (·.mode == .narp) = false := by
        rw [slots, List.any_eq_false]
        intro s member
        have keeping := (List.mem_filter.mp member).2
        simp only [keeps, Bool.and_eq_true, bne_iff_ne] at keeping
        simpa using keeping.1
      rw [check, unnamed]
      rfl
    · have run : machine.encodeOperands other.2 _ _ (machine.draft other.1 other.2 r.address) = _ :=
        encodeOperands_reads reads rfl
      have drafted : (machine.draft other.1 other.2 r.address).opcode = hit.2.opcode := opcode
      have quiet : back.findSome? (·.fault) = none := List.findSome?_eq_none_iff.mpr silent
      rw [drafted, word] at run
      rw [encode_word lead cells run, quiet]
      rfl

/-- An instruction that names the next register has its longest form, with every operand. -/
theorem assemble_pointed (full : isFull hit = true) (inWord : ∀ s ∈ hit.2.slots, s.mode ≠ .pma)
    (names : ∀ d, machine.finish hit r.rest r.address = d → pointed d.opcode = true) :
    machine.assemble ∅ (machine.decode ∅ style r).1.text r.address =
      ⟨r.address, (machine.finish hit r.rest r.address).bytes, none⟩ := by
  have own := List.mem_of_find?_eq_some found
  obtain ⟨d, covered, finished, written, each, read⟩ := exists_word found clean inWord
  have named := names d finished
  obtain ⟨split, pointerless⟩ := split_of_full own full
  obtain ⟨lead, -, cells, -⟩ := page_of_own own
  have memory : mem ∈ hit.2.slots.dropLast := by
    have member := mem_of_full own full
    rw [split, List.mem_append, List.mem_singleton] at member
    exact member.resolve_right (by decide)
  let rendering := machine.rendering ∅ style r.address
  let next : Operand Mode Reg :=
    { mode := .narp, value := (codeOf d.opcode &&& 1).toNat, column := 0 }
  have bit : (codeOf d.opcode &&& 1).toNat < 2 := by
    rw [BitVec.toNat_and]
    exact Nat.lt_of_le_of_lt Nat.and_le_right (by decide)
  have inside (s : Slot Mode) (member : s ∈ hit.2.slots.dropLast) := List.mem_of_mem_dropLast member
  obtain ⟨ops, related⟩ : ∃ ops, List.Forall₂ (fun s op =>
      (machine.decodeOperand hit.2 s none d).1 = some op ∧ Restores s d.opcode rendering op)
      hit.2.slots.dropLast ops := by
    apply exists_forall₂
    intro s member
    exact exists_restores rfl (proper_of_own own (inside s member)) (inWord s (inside s member))
      (pointerless s member) (each s (inside s member))
  have restores := related.imp fun _ _ both => both.2
  have decoded : (hit.2.slots.filterMap fun s => (machine.decodeOperand hit.2 s none d).1) =
      ops ++ [next] := by
    have last : (machine.decodeOperand hit.2 pointer none d).1 = some next := by
      rw [decode_pointer rfl, named]
      rfl
    conv_lhs => rw [split]
    rw [List.filterMap_append, filterMap_of_forall₂ (related.imp fun _ _ both => both.1)]
    simp [last]
  have tidied : tidy (ops ++ [next]) = ops ++ [next] := by simp [tidy, next]
  rw [finished, ← written]
  refine Machine.assemble_text_eq ∅ style found (name_of_own own)
    (?_ : List.Forall₂ _ _ (ops.map echo ++ [echo next])) ?_
  · rw [read, decoded]
    change List.Forall₂ _ (((tidy _).map (formatOperand rendering)).map _) _
    rw [tidied, List.map_append, List.map_append]
    have last : machine.ParsesAs rendering.scope (formatOperand rendering next).toList (echo next) :=
      parses_decimal (by omega)
    exact List.rel_append (parses_of_restores restores) (.cons last .nil)
  · intro back moved silent mnemonic same
    obtain ⟨front, rest, rfl, before, behind⟩ := exists_append_of_forall₂ moved
    obtain ⟨q, rfl⟩ : ∃ q, rest = [q] := List.length_eq_one_iff.mp behind.length_eq.symm
    have q_eq : q = { echo next with column := q.column } := by
      cases behind with
      | cons first _ => exact first
    have reads := reads_of_moved restores before
    have accepted : List.Forall₂ (fun slot op => accepts slot.mode op.mode = true) hit.2.slots
        (front ++ [q]) := by
      rw [split]
      exact List.rel_append (accepts_of_reads reads) (.cons (by rw [q_eq]; rfl) .nil)
    refine ⟨hit, findByName_form own same accepted, ?_, ?_⟩
    · change check hit.2 (front ++ [q]) = none
      have indirect := @any_ind_of_pointed hit d rendering rfl _ _ _ memory
        (related.imp fun _ _ both => both.1) (each mem (inside mem memory)) named before
      rw [check, List.any_append, indirect]
      simp
    · have quiet : (front ++ [q]).findSome? (·.fault) = none :=
        List.findSome?_eq_none_iff.mpr silent
      have value : q.value = (codeOf d.opcode &&& 1).toNat := by rw [q_eq]; rfl
      have run := encodeOperands_pointed own full covered (each mem (inside mem memory)) named reads
        value hit.1 r.address
      rw [encode_word lead cells run, quiet]
      rfl

/-- A branch has its program address in the second word. -/
theorem exists_branch (slots : hit.2.slots = [.bare .pma]) :
    ∃ (reading : Reading machine hit.2) (code tail : List UInt8), code.length = 2 ∧
      2 ≤ tail.length ∧ hit.2.covers (BitVec.ofNat 32 (Endian.big.number code)) = true ∧
      machine.course hit r.rest r.address = [reading] ∧ reading.slot = .bare .pma ∧
      (machine.finish hit r.rest r.address).bytes = code ++ tail.take 2 ∧
      ∃ column, reading.operand =
        some { mode := .pma, value := Endian.big.number (tail.take 2), column } := by
  have own := List.mem_of_find?_eq_some found
  obtain ⟨code, tail, rest, two, covered, start⟩ :=
    exists_start own (List.find?_some found) r.address
  let reading : Reading machine hit.2 := ⟨.bare .pma, none,
    ⟨config, r.address, BitVec.ofNat 32 (Endian.big.number code), [], code, tail, none⟩⟩
  have shaped : machine.shape reading.slot.mode = .absolute .word := rfl
  have course : machine.course hit r.rest r.address = [reading] := by
    rw [Machine.course, start, slots]
    rfl
  have finish : machine.finish hit r.rest r.address = reading.stop := by
    rw [Machine.finish, course]
    rfl
  obtain ⟨n, sized, enough⟩ :=
    Machine.enough_of_number none (.inr shaped) (finish ▸ clean : reading.stop.fault = none)
  obtain rfl : 2 = n := Option.some.inj sized
  have decoded := Machine.decodeOperand_number none (.inr shaped) sized enough
  refine ⟨reading, code, tail, two, enough, covered, course, rfl, ?_, code.length, ?_⟩
  · rw [finish, Reading.stop, decoded]
    rfl
  · rw [Reading.operand, decoded]
    rfl

/-- The text of a branch is read with its program address. What holds of every encoding of that
holds of its assembly. -/
theorem assemble_branch_induction (slots : hit.2.slots = [.bare .pma]) {P : Assembled → Prop}
    (encodes : ∀ q : Operand Mode Reg, q.undefined = false → q.fault = none →
      q.value = Endian.big.number ((machine.finish hit r.rest r.address).bytes.drop 2) →
      P (machine.encode hit.1 hit.2 [q] r.address)) :
    P (machine.assemble ∅ (machine.decode ∅ style r).1.text r.address) := by
  have own := List.mem_of_find?_eq_some found
  obtain ⟨reading, code, tail, two, enough, -, course, -, bytes, column, read⟩ :=
    exists_branch found clean slots
  rw [bytes, List.drop_left' two] at encodes
  let rendering := machine.rendering ∅ style r.address
  let target : Operand Mode Reg :=
    { mode := .imm, value := Endian.big.number (tail.take 2), column := 0 }
  have low : 0 ≤ target.value := Int.natCast_nonneg _
  have high : target.value < 0x10000 := by
    have bound := Endian.big.number_lt (tail.take 2)
    rw [List.length_take_of_le enough] at bound
    exact Int.ofNat_lt.mpr bound
  have parses : machine.ParsesAs rendering.scope
      (rendering.place (UInt32.ofInt target.value)).toList target := by
    apply parses_number (rendering.evals_place rfl low (by omega)) (by omega) (by omega)
    rw [rendering.place_no_symbols rfl]
    exact opens_hex rfl _ _
  have written : (machine.tidy ([reading].filterMap (·.operand))).map
      (machine.formatOperand rendering) = [rendering.place (UInt32.ofInt target.value)] := by
    rw [List.filterMap_cons, read]
    rfl
  apply Machine.assemble_text_induction ∅ style found (name_of_own own)
  · rw [course]
    change List.Forall₂ _ (((machine.tidy _).map (machine.formatOperand rendering)).map _) _
    rw [written]
    exact .cons parses .nil
  · intro back moved silent mnemonic same
    obtain ⟨q, rfl⟩ : ∃ q, back = [q] := List.length_eq_one_iff.mp moved.length_eq.symm
    have q_eq : q = { target with column := q.column } := by
      cases moved with
      | cons first _ => exact first
    refine ⟨hit, findByName_form own same ?_, ?_, encodes q (by rw [q_eq]) (silent q (by simp)) ?_⟩
    · rw [slots, q_eq]
      exact .cons rfl .nil
    · change check hit.2 [q] = none
      rw [check, slots]
      rfl
    · rw [q_eq]

/-- An instruction with a program address in its second word. -/
theorem assemble_branch (slots : hit.2.slots = [.bare .pma])
    (near : Endian.big.number ((machine.finish hit r.rest r.address).bytes.drop 2) < 0x1000) :
    machine.assemble ∅ (machine.decode ∅ style r).1.text r.address =
      ⟨r.address, (machine.finish hit r.rest r.address).bytes, none⟩ := by
  have own := List.mem_of_find?_eq_some found
  obtain ⟨reading, code, tail, two, -, -, course, slot, bytes, column, read⟩ :=
    exists_branch found clean slots
  apply assemble_branch_induction (P := (· = _)) style found clean slots
  intro q known silent value
  have shaped : machine.shape reading.slot.mode = .absolute .word := by rw [slot]; rfl
  have echo : machine.Echo hit.2 reading q := {
    known
    value := by
      intro op found
      rw [read] at found
      rw [value, ← Option.some.inj found, bytes, List.drop_left' two]
    register := by simp [shaped]
    bounded := by
      intro width _
      rw [value]
      exact Int.ofNat_lt.mpr near
    straight := by simp [shaped]
    custom := by simp [shaped] }
  exact Machine.encode_course compact customFollows unindexed (entryFits_of_own own)
    (List.find?_some found) clean (course ▸ .cons echo .nil) (by simpa using silent)

/-- Every instruction that is decoded without a fault, by whether it has a second word and names a
next register. -/
theorem assemble_found
    (near : Endian.big.number ((machine.finish hit r.rest r.address).bytes.drop 2) < 0x1000) :
    machine.assemble ∅ (machine.decode ∅ style r).1.text r.address =
      ⟨r.address, (machine.finish hit r.rest r.address).bytes, none⟩ := by
  by_cases inWord : ∀ s ∈ hit.2.slots, s.mode ≠ .pma
  · cases full : isFull hit with
    | false => exact assemble_kept style found clean inWord fun _ _ => .inr full
    | true =>
      cases names : pointed (machine.finish hit r.rest r.address).opcode with
      | false => exact assemble_kept style found clean inWord fun _ same => .inl (same ▸ names)
      | true => exact assemble_pointed style found clean full inWord fun _ same => same ▸ names
  · obtain ⟨s, member, branch⟩ : ∃ s ∈ hit.2.slots, s.mode = .pma := by simpa using inWord
    exact assemble_branch style found clean
      (branch_of_own (List.mem_of_find?_eq_some found) member branch) near

end Assemble

end CrossAsm.Tms32010

namespace CrossAsm

/-- An instruction of the TMS32010 that decodes without a fault is assembled from its text to the
bytes it was decoded from. Program addresses have twelve bits, so the second word of a branch has
to be an address. -/
theorem Target.tms32010_assembles_decoded (style : Style) (r : Reader)
    (clean : (tms32010.decode ∅ style r).1.fault = none)
    (near : Endian.big.number ((tms32010.decode ∅ style r).1.bytes.drop 2) < 0x1000) :
    tms32010.assemble ∅ (tms32010.decode ∅ style r).1.text r.address =
      ⟨r.address, (tms32010.decode ∅ style r).1.bytes, none⟩ := by
  change (Tms32010.machine.decode ∅ style r).1.fault = none at clean
  change Endian.big.number ((Tms32010.machine.decode ∅ style r).1.bytes.drop 2) < 0x1000 at near
  change Tms32010.machine.assemble ∅ (Tms32010.machine.decode ∅ style r).1.text r.address =
    ⟨r.address, (Tms32010.machine.decode ∅ style r).1.bytes, none⟩
  obtain ⟨hit, found⟩ := Machine.exists_hit_of_decode clean
  have decoded := Machine.decode_eq ∅ style found
  have own := List.mem_of_find?_eq_some found
  have bytes : (Tms32010.machine.decode ∅ style r).1.bytes =
      (Tms32010.machine.finish hit r.rest r.address).bytes := by rw [decoded]
  rw [decoded] at clean
  rw [bytes] at near ⊢
  by_cases branch : ∃ s ∈ hit.2.slots, s.mode = .pma
  · obtain ⟨s, member, mode⟩ := branch
    exact Tms32010.assemble_branch style found clean (Tms32010.branch_of_own own member mode) near
  · have inWord (s : Slot Tms32010.Mode) (member : s ∈ hit.2.slots) : s.mode ≠ .pma :=
      fun mode => branch ⟨s, member, mode⟩
    by_cases names : Tms32010.pointed (Tms32010.machine.finish hit r.rest r.address).opcode = true ∧
        Tms32010.isFull hit = true
    · exact Tms32010.assemble_pointed style found clean names.2 inWord
        fun d finished => finished ▸ names.1
    · refine Tms32010.assemble_kept style found clean inWord fun d finished => ?_
      rw [← finished]
      simpa [Classical.or_iff_not_imp_left] using names

/-- `ADD *+,2,0` steps and names the next register; `BANZ` has an address in its second word. -/
theorem Target.tms32010_assembles_decoded_add_banz :
    let add : Reader := Memory.reader ⟨0x10, [0x02, 0xA0], .word⟩
    let banz : Reader := Memory.reader ⟨0x11, [0xF4, 0x00, 0x0F, 0xFE], .word⟩
    (tms32010.decode ∅ {} add).1.operands = ["*+", "2", "0"] ∧
      tms32010.assemble ∅ (tms32010.decode ∅ {} add).1.text add.address =
        ⟨add.address, (tms32010.decode ∅ {} add).1.bytes, none⟩ ∧
      tms32010.assemble ∅ (tms32010.decode ∅ {} banz).1.text banz.address =
        ⟨banz.address, (tms32010.decode ∅ {} banz).1.bytes, none⟩ := by
  intro add banz
  exact ⟨by decide,
    tms32010_assembles_decoded {} add (by decide) (by decide),
    tms32010_assembles_decoded {} banz (by decide) (by decide)⟩

end CrossAsm

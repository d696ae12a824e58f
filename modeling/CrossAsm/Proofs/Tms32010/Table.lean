import CrossAsm.Proofs.Readback
import CrossAsm.Target.Tms32010

/-! The instruction table of the TMS32010: what holds of every entry, and how the forms of one
instruction stand to each other. -/

namespace CrossAsm.Tms32010

theorem compact : machine.Compact where
  flat := rfl
  wide := (by decide : 8 ≤ 12)
  rigid mode relative := by cases mode <;> exact nofun
  relative mode width shaped := by cases mode <;> simp_all [machine, shape]
  indexed mode width signed shaped := by cases mode <;> simp_all [machine, shape]
  fixed mode width shaped := by
    rintro rfl
    cases mode <;> simp [machine, shape] at shaped

theorem unindexed : machine.Unindexed := fun _ _ => rfl

theorem customFollows : machine.CustomFollows := by
  intro entry slot index d
  change Decoding.Follows d (decodeCustom entry slot index d).2
  unfold decodeCustom
  dsimp only
  split
  · split
    · exact .refl d
    · exact .refl d
  · split
    · exact .refl d
    · exact .fail d _
  · split
    · exact .refl d
    · split
      · exact .refl d
      · exact .fail d _

/-- A shift, which is not written where it is zero. -/
def isShift (mode : Mode) : Bool := mode == .shift || mode == .sachShift

/-- The next register pointer, which an entry has in its last place. -/
def pointer : Slot Mode := .bare .narp

/-- The shift of the high store. -/
def storeSlot : Slot Mode := .field .sachShift 8 3

/-- Does the entry take a next register pointer? -/
def isFull (hit : Page Mode × Entry Mode) : Bool := hit.2.slots.getLast? == some pointer

/-- A mode that a slot can have. -/
def isCategory (mode : Mode) : Bool := mode != .imm && mode != .ind && mode != .arReg

/-- What holds of every slot of the table. -/
structure Proper (s : Slot Mode) : Prop where
  category : isCategory s.mode = true
  narrow : s.width ≤ 13
  memory : s.mode = .mem → s = mem
  next : s.mode = .narp → s = pointer
  single : s.mode = .ar → s.width ≤ 1
  store : s.mode = .sachShift → s = storeSlot
  fits : machine.fieldFits s = true

/-- The same instruction, with these slots. -/
def isForm (hit : Page Mode × Entry Mode) (slots : List (Slot Mode))
    (other : Page Mode × Entry Mode) : Bool :=
  other.2.name == hit.2.name && other.2.opcode == hit.2.opcode && other.2.slots == slots

/-- What holds of every entry of the table. -/
def sound (hit : Page Mode × Entry Mode) : Bool :=
  machine.entryFits hit &&
    (hit.1.lead.isEmpty && hit.1.gap == 0 && hit.1.opcodeCells == 1 && hit.2.post.isNone) &&
    hit.2.slots.all (fun s => isCategory s.mode && decide (s.width ≤ 13) &&
      (s.mode != .mem || s == mem) && (s.mode != .narp || s == pointer) &&
      (s.mode != .ar || decide (s.width ≤ 1)) && (s.mode != .sachShift || s == storeSlot)) &&
    (!hit.2.slots.any (·.mode == .pma) || hit.2.slots == [.bare .pma]) &&
    hit.2.slots.dropLast.all (·.mode != .narp) &&
    (isFull hit == hit.2.slots.any (·.mode == .narp)) &&
    decide ((hit.2.slots.filter (isShift ·.mode)).length ≤ 1) &&
    Machine.isName hit.2.name

set_option maxRecDepth 20000 in
theorem table_sound : machine.entries.all sound = true := by
  unfold sound
  simp only [Machine.isName_eq]
  decide

/-- The forms of an instruction on memory: with the next register pointer, which stands first,
without it, and without a shift too. -/
def formed (hit : Page Mode × Entry Mode) : Bool :=
  if isFull hit then
    hit.2.slots.contains mem &&
      machine.entries.any (isForm hit hit.2.slots.dropLast) &&
      machine.entries.any (isForm hit (hit.2.slots.dropLast.filter (!isShift ·.mode)))
  else
    hit.2.slots.all (fun s => s.mode != .mem && !isShift s.mode) ||
      machine.entries.any fun other => isFull other && other.2.name == hit.2.name &&
        other.2.opcode == hit.2.opcode && hit.2.slots.all other.2.slots.contains

set_option maxRecDepth 20000 in
theorem table_formed : machine.entries.all formed = true := by decide

set_option maxRecDepth 20000 in
theorem table_ordered : machine.entries.Pairwise fun earlier later =>
    (earlier.2.name == later.2.name &&
      (earlier.2.slots.length == later.2.slots.length || !isFull earlier && isFull later)) =
      false := by
  refine Machine.pairwise_of_name (fun earlier later taken => ?_) (by decide)
  simp only [Bool.not_eq_false, Bool.and_eq_true, beq_iff_eq] at taken
  exact taken.1

theorem own_of_entry {hit : Page Mode × Entry Mode} (member : hit ∈ machine.entries) :
    hit ∈ machine.ownEntries := by
  have all : machine.entries.all (fun hit => machine.enabled hit.1) = true := by decide
  exact machine.mem_ownEntries.mpr ⟨member, List.all_eq_true.mp all hit member⟩

section Hit

variable {hit : Page Mode × Entry Mode} (own : hit ∈ machine.ownEntries)

include own

theorem sound_of_own : sound hit = true :=
  List.all_eq_true.mp table_sound hit (machine.mem_ownEntries.mp own).1

theorem entryFits_of_own : machine.entryFits hit = true := by
  have checked := sound_of_own own
  simp only [sound, Bool.and_eq_true] at checked
  exact checked.1.1.1.1.1.1.1

theorem page_of_own : hit.1.lead = [] ∧ hit.1.gap = 0 ∧ hit.1.opcodeCells = 1 ∧
    hit.2.post = none := by
  have checked := sound_of_own own
  simp only [sound, Bool.and_eq_true, List.isEmpty_iff, beq_iff_eq, Option.isNone_iff_eq_none]
    at checked
  obtain ⟨⟨⟨lead, gap⟩, cells⟩, post⟩ := checked.1.1.1.1.1.1.2
  exact ⟨lead, gap, cells, post⟩

theorem proper_of_own {s : Slot Mode} (member : s ∈ hit.2.slots) : Proper s := by
  have checked := sound_of_own own
  simp only [sound, Bool.and_eq_true, List.all_eq_true] at checked
  obtain ⟨⟨⟨⟨⟨category, narrow⟩, memory⟩, next⟩, single⟩, store⟩ := checked.1.1.1.1.1.2 s member
  exact
    { category
      narrow := by simpa using narrow
      memory := fun mode => by simpa [mode] using memory
      next := fun mode => by simpa [mode] using next
      single := fun mode => by simpa [mode] using single
      store := fun mode => by simpa [mode] using store
      fits := Machine.fieldFits_of_entryFits (entryFits_of_own own) member }

theorem branch_of_own {s : Slot Mode} (member : s ∈ hit.2.slots) (branch : s.mode = .pma) :
    hit.2.slots = [.bare .pma] := by
  have checked := sound_of_own own
  simp only [sound, Bool.and_eq_true, Bool.or_eq_true, Bool.not_eq_true', beq_iff_eq] at checked
  rcases checked.1.1.1.1.2 with none | found
  · simp only [List.any_eq_false, beq_iff_eq] at none
    exact absurd branch (none s member)
  · exact found

/-- A next register pointer stands last. -/
theorem split_of_full (full : isFull hit = true) :
    hit.2.slots = hit.2.slots.dropLast ++ [pointer] ∧
      ∀ s ∈ hit.2.slots.dropLast, s.mode ≠ .narp := by
  have checked := sound_of_own own
  simp only [sound, Bool.and_eq_true, List.all_eq_true, bne_iff_ne] at checked
  refine ⟨?_, checked.1.1.1.2⟩
  have last : hit.2.slots.getLast? = some pointer := by simpa [isFull] using full
  exact (List.dropLast_append_getLast? pointer last).symm

theorem pointerless_of_not_full (full : isFull hit = false) {s : Slot Mode}
    (member : s ∈ hit.2.slots) : s.mode ≠ .narp := by
  have checked := sound_of_own own
  simp only [sound, Bool.and_eq_true, full, beq_iff_eq] at checked
  have none := checked.1.1.2.symm
  simp only [List.any_eq_false, beq_iff_eq] at none
  exact none s member

/-- There is one shift at most. -/
theorem eq_of_isShift {s t : Slot Mode} (first : s ∈ hit.2.slots) (second : t ∈ hit.2.slots)
    (shift : isShift s.mode = true) (other : isShift t.mode = true) : s = t := by
  have checked := sound_of_own own
  simp only [sound, Bool.and_eq_true, decide_eq_true_eq] at checked
  have inFirst : s ∈ hit.2.slots.filter (isShift ·.mode) := List.mem_filter.mpr ⟨first, shift⟩
  have inSecond : t ∈ hit.2.slots.filter (isShift ·.mode) := List.mem_filter.mpr ⟨second, other⟩
  obtain ⟨only, single⟩ := List.length_eq_one_iff.mp
    (Nat.le_antisymm checked.1.2 (List.length_pos_of_mem inFirst))
  rw [single, List.mem_singleton] at inFirst inSecond
  rw [inFirst, inSecond]

theorem name_of_own : Machine.isName hit.2.name = true := by
  have checked := sound_of_own own
  simp only [sound, Bool.and_eq_true] at checked
  exact checked.2

theorem formed_of_own : formed hit = true :=
  List.all_eq_true.mp table_formed hit (machine.mem_ownEntries.mp own).1

/-- The form of an instruction with fewer operands. -/
theorem exists_form {slots : List (Slot Mode)} (full : isFull hit = true)
    (fewer : slots = hit.2.slots.dropLast ∨
      slots = hit.2.slots.dropLast.filter (!isShift ·.mode)) :
    ∃ other ∈ machine.ownEntries, other.2.name = hit.2.name ∧ other.2.opcode = hit.2.opcode ∧
      other.2.slots = slots := by
  have checked := formed_of_own own
  simp only [formed, full, if_true, Bool.and_eq_true] at checked
  have found : machine.entries.any (isForm hit slots) = true := by
    rcases fewer with rfl | rfl
    · exact checked.1.2
    · exact checked.2
  obtain ⟨other, member, same⟩ := List.any_eq_true.mp found
  simp only [isForm, Bool.and_eq_true, beq_iff_eq] at same
  exact ⟨other, own_of_entry member, same.1.1, same.1.2, same.2⟩

theorem mem_of_full (full : isFull hit = true) : mem ∈ hit.2.slots := by
  have checked := formed_of_own own
  simp only [formed, full, if_true, Bool.and_eq_true, List.contains_iff_mem] at checked
  exact checked.1.1

/-- An entry that takes a memory operand without a next register pointer takes neither memory nor
a shift, or there is one that takes a pointer too. -/
theorem exists_fuller (bare : isFull hit = false) :
    (∀ s ∈ hit.2.slots, s.mode ≠ .mem ∧ isShift s.mode = false) ∨
      ∃ other ∈ machine.ownEntries, isFull other = true ∧ other.2.name = hit.2.name ∧
        other.2.opcode = hit.2.opcode ∧ ∀ s ∈ hit.2.slots, s ∈ other.2.slots := by
  have checked := formed_of_own own
  simp only [formed, bare, Bool.false_eq_true, if_false, Bool.or_eq_true, List.all_eq_true,
    Bool.and_eq_true, bne_iff_ne, Bool.not_eq_true', List.any_eq_true, beq_iff_eq,
    List.contains_iff_mem] at checked
  rcases checked with none | ⟨other, member, ⟨⟨full, name⟩, opcode⟩, slots⟩
  · exact .inl none
  · exact .inr ⟨other, own_of_entry member, full, name, opcode, slots⟩

/-- An entry is found by its opcode word. -/
theorem exists_start {rest : List UInt8} (hits : machine.hits rest hit = true)
    (address : UInt32) : ∃ code tail, rest = code ++ tail ∧ code.length = 2 ∧
      hit.2.covers (BitVec.ofNat 32 (Endian.big.number code)) = true ∧
      machine.indexed hit rest address = (hit.2.slots.map fun s => (s, none),
        ⟨config, address, BitVec.ofNat 32 (Endian.big.number code), [], code, tail, none⟩) := by
  obtain ⟨lead, gapless, cells, -⟩ := page_of_own own
  obtain ⟨gap, code, tail, rfl, gapped, coded⟩ := machine.split_of_hits hits
  have two : code.length = 2 := by
    rw [coded, Machine.opcodeLength, cells]
    rfl
  obtain rfl : gap = [] := by
    apply List.length_eq_zero_iff.mp
    rw [gapped, Machine.gapLength, gapless, Nat.zero_mul]
  have start := machine.decoding_append hit address tail gapped coded
  rw [machine.hits_append hit tail gapped coded, Bool.and_eq_true] at hits
  refine ⟨code, tail, by simp [lead], two, hits.1, ?_⟩
  rw [Machine.indexed, start, Machine.readIndexes_eq unindexed, lead]
  rfl

theorem hits_word {code : List UInt8} (tail : List UInt8) (two : code.length = 2) :
    machine.hits (code ++ tail) hit =
      hit.2.covers (BitVec.ofNat 32 (Endian.big.number code)) := by
  obtain ⟨lead, gapless, cells, post⟩ := page_of_own own
  have coded : code.length = machine.opcodeLength hit.1 := by
    rw [two, Machine.opcodeLength, cells]
    rfl
  have gapped : ([] : List UInt8).length = machine.gapLength hit.1 := by
    rw [Machine.gapLength, gapless, Nat.zero_mul]
    rfl
  have split := machine.hits_append hit tail gapped coded
  rw [lead, List.nil_append, List.nil_append] at split
  rw [split, Machine.postHolds, post, Bool.and_true]
  rfl

/-- The fields of an entry do not overlap its opcode. -/
theorem opcode_apart : hit.2.opcode &&& slotMask hit.2.slots = 0#32 :=
  Entry.opcode_of_fieldsApart (Machine.fieldsApart_of_entryFits (entryFits_of_own own))

end Hit

end CrossAsm.Tms32010

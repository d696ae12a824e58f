import CrossAsm.Proofs.Readback
import CrossAsm.Target.Z80

/-! The instruction table of the Z80: what holds of every entry, and which entries could be taken
for one another. -/

namespace CrossAsm.Z80

section Shapes

variable {mode : Mode} {width : Width}

theorem mode_of_relative (shaped : shape mode = .relative width) : mode = .rel := by
  cases mode <;> first | rfl | exact nomatch shaped

theorem mode_of_indexed {signed : Bool} (shaped : shape mode = .indexed width signed) :
    mode = .idxIx ∨ mode = .idxIy := by
  cases mode <;> first | exact .inl rfl | exact .inr rfl | exact nomatch shaped

theorem mode_of_custom (shaped : shape mode = .custom) : mode = .rst ∨ mode = .imMode := by
  cases mode <;> first | exact .inl rfl | exact .inr rfl | exact nomatch shaped

end Shapes

theorem compact : machine.Compact where
  flat := rfl
  wide := (by decide : 8 ≤ 16)
  rigid mode relative := by cases mode <;> exact nofun
  relative mode width shaped := by cases mode <;> simp_all [machine, shape]
  indexed mode width signed shaped := by cases mode <;> simp_all [machine, shape]
  fixed mode width shaped := by
    rintro rfl
    cases mode <;> simp [machine, shape] at shaped

theorem unindexed : machine.Unindexed := fun _ _ => rfl

theorem customFollows : machine.CustomFollows := by
  intro entry slot index d
  change Decoding.Follows d (decodeCustom entry slot index d).2
  unfold decodeCustom
  dsimp only
  split
  · exact .refl d
  · split
    · exact .refl d
    · exact .fail d _
    · exact .refl d

/-- The modes in which operands are written. -/
def spoken : List Mode :=
  [.regA, .regC, .r8, .regI, .regR, .regBc, .regDe, .regHl, .regSp, .regAf, .afAlt, .regIx, .regIy,
    .cc, .indHl, .indBc, .indDe, .indSp, .indC, .indAbs, .indIx, .indIy, .imm]

/-- The modes in which the operand of a slot is written. -/
def written (category : Mode) : List Mode := spoken.filter (accepts category)

theorem accepts_written {category mode : Mode} (form : mode ∈ written category) :
    accepts category mode = true :=
  (List.mem_filter.mp form).2

/-- Bits of the field that stands for an operand in the opcode. -/
def fieldWidth : Mode → Nat
  | .reg8 | .reg8M | .cond | .bit | .rst => 3
  | .pair | .pairAf | .pairIx | .pairIy | .condJr | .imMode => 2
  | _ => 0

/-- A jump by a distance, by its opcode. -/
def isBranch (opcode : UInt8) : Bool := [0x10, 0x18, 0x20, 0x28, 0x30, 0x38].contains opcode

/-- The load between HL and memory with a lead byte, behind the one without. -/
def shadows (earlier later : Page Mode × Entry Mode) : Bool :=
  earlier.2.slots == [.bare .abs16, .bare .hl] &&
      (later.1.lead == [0xED] && later.1.gap == 0 && later.2.opcode == 0x43 &&
        later.2.slots == [.bare .abs16, .field .pair 4 2]) ||
    earlier.2.slots == [.bare .hl, .bare .abs16] &&
      (later.1.lead == [0xED] && later.1.gap == 0 && later.2.opcode == 0x4B &&
        later.2.slots == [.field .pair 4 2, .bare .abs16])

/-- HALT, and the load from memory at a displacement, stand before loads with which they share an
opcode. -/
def hides (earlier later : Page Mode × Entry Mode) : Bool :=
  earlier.2.name == "HALT" && later.2.opcode == 0x40 ||
    earlier.2.opcode == 0x46 && later.2.opcode == 0x70

/-- The load that would be from and to memory at HL. -/
def mayHalt (hit : Page Mode × Entry Mode) : Bool :=
  hit.2.name == "LD" && hit.2.slots.all fun s => accepts s.mode .indHl

/-- What holds of every entry of the table. -/
def sound (hit : Page Mode × Entry Mode) : Bool :=
  machine.entryFits hit && hit.1.opcodeCells == 1 &&
    hit.2.slots.all (fun s => !(written s.mode).isEmpty && s.width == fieldWidth s.mode) &&
    (!hit.2.slots.any (·.mode == .rel) ||
      hit.1.lead.isEmpty && hit.1.gap == 0 &&
        (hit.2.slots == [.bare .rel] || hit.2.slots == [.field .condJr 3 2, .bare .rel]) &&
        (List.range 256).all fun byte => !hit.2.covers (BitVec.ofNat 32 byte) ||
          isBranch (UInt8.ofNat byte)) &&
    (!hit.2.slots.any (fun s => s.mode == .jpIx || s.mode == .jpIy) || hit.2.slots.length == 1) &&
    (!mayHalt hit || hit.1.lead.isEmpty && hit.1.gap == 0 && hit.2.opcode == 0x40 &&
      hit.2.slots == [.field .reg8M 3 3, .field .reg8M 0 3]) &&
    Machine.isName hit.2.name

set_option maxRecDepth 20000 in
theorem table_sound : machine.entries.all (fun hit => sound hit && hit.2.post.isNone) = true := by
  unfold sound
  simp only [Machine.isName_eq]
  decide +kernel

set_option maxRecDepth 20000 in
theorem table_ordered : machine.entries.Pairwise fun earlier later =>
    (Machine.mayAdmit accepts written earlier.2.slots later.2.slots &&
      earlier.2.name == later.2.name && !shadows earlier later) = false := by
  refine Machine.pairwise_of_name (fun earlier later taken => ?_) (by decide)
  simp only [Bool.not_eq_false, Bool.and_eq_true, beq_iff_eq] at taken
  exact taken.1.2

/-- Memory at HL where the entry takes a register only, or in both places of a load. No operands are
written so. -/
def unwritable (hit : Page Mode × Entry Mode) (opcode : BitVec 32) : Bool :=
  hit.2.slots.any (fun s => s.mode == .reg8 && s.read opcode == 6) ||
    hit.2.name == "LD" && hit.2.slots.length == 2 &&
      hit.2.slots.all fun s => s.mode == .reg8M && s.read opcode == 6

set_option maxRecDepth 20000 in
/-- Entries overlap only where one hides the other. Then they have the same bytes in front of the
opcode, and no opcode that both cover is written as the hidden one. -/
theorem table_apart : machine.entries.Pairwise fun earlier later =>
    (Pattern.overlaps (machine.patternOf earlier) (machine.patternOf later) &&
      !(hides earlier later && (earlier.1.lead == later.1.lead && earlier.1.gap == later.1.gap &&
        (List.range 256).all fun byte => !earlier.2.covers (BitVec.ofNat 32 byte) ||
          !later.2.covers (BitVec.ofNat 32 byte) || unwritable later (BitVec.ofNat 32 byte)))) =
      false := by
  refine machine.pairwise_of_overlaps [7, 6, 5, 4] (fun earlier later both => ?_) (by decide +kernel)
  simp only [Bool.not_eq_false, Bool.and_eq_true] at both
  exact both.1

section Hit

variable {hit : Page Mode × Entry Mode} (own : hit ∈ machine.ownEntries)

include own

theorem sound_and_plain_of_own : sound hit = true ∧ hit.2.post = none := by
  have checked := List.all_eq_true.mp table_sound hit (machine.mem_ownEntries.mp own).1
  simpa only [Bool.and_eq_true, Option.isNone_iff_eq_none] using checked

theorem sound_of_own : sound hit = true := (sound_and_plain_of_own own).1

theorem entryFits_of_own : machine.entryFits hit = true := by
  have checked := sound_of_own own
  simp only [sound, Bool.and_eq_true] at checked
  exact checked.1.1.1.1.1.1

theorem opcodeLength_of_own : machine.opcodeLength hit.1 ≤ 4 :=
  Machine.opcodeLength_le_of_entryFits (entryFits_of_own own)

/-- An entry that matches is found, or one that hides it. -/
theorem exists_first {rest : List UInt8} (hits : machine.hits rest hit = true) :
    ∃ first ∈ machine.ownEntries, machine.ownEntries.find? (machine.hits rest) = some first ∧
      machine.hits rest first = true ∧ (first = hit ∨ hides first hit = true) := by
  obtain ⟨first, member, found, matched, order⟩ :=
    machine.exists_first_of_hits table_apart (fun _ own => opcodeLength_of_own own) own hits
  refine ⟨first, member, found, matched, order.imp_right fun ⟨apart, both⟩ => ?_⟩
  simp only [both, Bool.true_and, Bool.not_eq_false', Bool.and_eq_true] at apart
  exact apart.1

theorem find?_of_hits {rest : List UInt8} (hits : machine.hits rest hit = true)
    (free : ∀ first, hides first hit = false) :
    machine.ownEntries.find? (machine.hits rest) = some hit := by
  obtain ⟨first, -, found, -, order⟩ := exists_first own hits
  rcases order with rfl | hidden
  · exact found
  · exact absurd ((free first).symm.trans hidden) (by decide)

/-- An entry that hides another has the same bytes in front of the opcode, and no opcode that both
cover is written as the hidden one. -/
theorem eq_or_unwritable {rest : List UInt8} {first : Page Mode × Entry Mode}
    (found : machine.ownEntries.find? (machine.hits rest) = some first)
    (hits : machine.hits rest hit = true) :
    first = hit ∨ first.1.lead = hit.1.lead ∧ first.1.gap = hit.1.gap ∧ ∀ byte < 256,
      first.2.covers (BitVec.ofNat 32 byte) = true → hit.2.covers (BitVec.ofNat 32 byte) = true →
        unwritable hit (BitVec.ofNat 32 byte) = true := by
  have member := List.mem_of_find?_eq_some found
  have overlaps := machine.overlaps_of_hits (opcodeLength_of_own member) (opcodeLength_of_own own)
    (List.find?_some found) hits
  rcases eq_or_related_of_find? (table_apart.filter _) found own hits with same | apart
  · exact .inl same
  simp only [overlaps, Bool.true_and, Bool.not_eq_false', Bool.and_eq_true, beq_iff_eq,
    List.all_eq_true, List.mem_range] at apart
  obtain ⟨-, ⟨lead, gap⟩, each⟩ := apart
  refine .inr ⟨lead, gap, fun byte small earlier later => ?_⟩
  simpa [earlier, later] using each byte small

theorem postHolds_of_own (tail : List UInt8) : machine.postHolds hit.2 tail = true := by
  rw [Machine.postHolds, (sound_and_plain_of_own own).2]

theorem opcodeCells_of_own : hit.1.opcodeCells = 1 := by
  have checked := sound_of_own own
  simp only [sound, Bool.and_eq_true, beq_iff_eq] at checked
  exact checked.1.1.1.1.1.2

theorem slot_of_own {s : Slot Mode} (member : s ∈ hit.2.slots) :
    written s.mode ≠ [] ∧ s.width = fieldWidth s.mode := by
  have checked := sound_of_own own
  simp only [sound, Bool.and_eq_true, List.all_eq_true] at checked
  simpa using checked.1.1.1.1.2 s member

theorem branch_of_own {s : Slot Mode} (member : s ∈ hit.2.slots) (branch : s.mode = .rel) :
    hit.1.lead = [] ∧ hit.1.gap = 0 ∧
      (hit.2.slots = [.bare .rel] ∨ hit.2.slots = [.field .condJr 3 2, .bare .rel]) ∧
      ∀ byte < 256, hit.2.covers (BitVec.ofNat 32 byte) = true →
        isBranch (UInt8.ofNat byte) = true := by
  have checked := sound_of_own own
  simp only [sound, Bool.and_eq_true, Bool.or_eq_true, Bool.not_eq_true'] at checked
  rcases checked.1.1.1.2 with none | ⟨⟨⟨lead, gap⟩, slots⟩, covered⟩
  · simp only [List.any_eq_false, beq_iff_eq] at none
    exact absurd branch (none s member)
  · refine ⟨by simpa using lead, by simpa using gap, by simpa using slots, fun byte small covers => ?_⟩
    simp only [List.all_eq_true, List.mem_range] at covered
    simpa [covers] using covered byte small

theorem jump_of_own {s : Slot Mode} (member : s ∈ hit.2.slots)
    (jump : s.mode = .jpIx ∨ s.mode = .jpIy) : hit.2.slots = [s] := by
  have checked := sound_of_own own
  simp only [sound, Bool.and_eq_true, Bool.or_eq_true, Bool.not_eq_true', beq_iff_eq] at checked
  rcases checked.1.1.2 with none | one
  · simp only [List.any_eq_false, Bool.or_eq_true, beq_iff_eq] at none
    exact absurd jump (none s member)
  · obtain ⟨t, slots⟩ := List.length_eq_one_iff.mp one
    rw [slots, List.mem_singleton] at member
    rw [slots, member]

theorem halt_of_own (halt : mayHalt hit = true) : hit.1.lead = [] ∧ hit.1.gap = 0 ∧
    hit.2.opcode = 0x40 ∧ hit.2.slots = [.field .reg8M 3 3, .field .reg8M 0 3] := by
  have checked := sound_of_own own
  simp only [sound, Bool.and_eq_true, halt, Bool.not_true, Bool.false_or, List.isEmpty_iff,
    beq_iff_eq] at checked
  exact ⟨checked.1.2.1.1.1, checked.1.2.1.1.2, checked.1.2.1.2, checked.1.2.2⟩

theorem name_of_own : Machine.isName hit.2.name = true := by
  have checked := sound_of_own own
  simp only [sound, Bool.and_eq_true] at checked
  exact checked.2

end Hit

end CrossAsm.Z80

import CrossAsm.Proofs.Readback
import CrossAsm.Target.Ns32000

/-! The instruction table of the NS32000. No two entries share a name, and no two match the same
bytes. -/

namespace CrossAsm.Ns32000

theorem customFollows : machine.CustomFollows := by
  have ladder (op : Operand Mode Reg) (d : Decoding) : Decoding.Follows d (decodeDisp op d).2 :=
    d.readLadder_follows
  have base (entry : Entry Mode) (mode : Mode) (gen : Nat) (indexed : Bool) (d : Decoding) :
      Decoding.Follows d (decodeBase entry mode gen indexed d).2 := by
    unfold decodeBase
    dsimp only
    split
    · exact .refl d
    split
    · exact ladder _ d
    split
    · split
      · exact .fail d _
      · exact d.readIn_follows .big _
    split
    · exact ladder _ d
    split
    · exact .refl d
    split
    · exact d.readLadder_follows
    split
    · exact ladder _ d
    · exact .fail d _
  have general (entry : Entry Mode) (slot : Slot Mode) (index : Option UInt8) (d : Decoding) :
      Decoding.Follows d (decodeGen entry slot index d).2 := by
    unfold decodeGen
    dsimp only
    split
    · exact .fail d _
    · split
      next found => exact congrArg Prod.snd found ▸ base entry slot.mode _ _ d
      · exact base entry slot.mode _ _ d
  intro entry slot index d
  change Decoding.Follows d (decodeCustom entry slot index d).2
  unfold decodeCustom
  dsimp only
  split
  · exact d.readIn_follows d.config.endian 1
  · exact d.readIn_follows d.config.endian 1
  · exact general entry slot index d

/-- A mode that a slot can have. -/
def isCategory (mode : Mode) : Bool :=
  isGen mode || mode == .quick || mode == .disp || mode == .dispAbs || mode == .list ||
    mode == .listRev

/-- What holds of every slot of an entry. -/
structure Proper (entry : Entry Mode) (s : Slot Mode) : Prop where
  category : isCategory s.mode = true
  general : isGen s.mode = true → s.width = 5
  quick : s.mode = .quick → s.width = 4
  sized : s.mode = .gen → ∃ n, Width.sized.bytes? entry.size = some n

/-- What holds of every entry of the table. -/
def sound (hit : Page Mode × Entry Mode) : Bool :=
  machine.entryFits hit && (hit.1.lead.isEmpty && hit.1.gap == 0 && hit.2.post.isNone) &&
    hit.2.slots.all (fun s => isCategory s.mode && (!isGen s.mode || s.width == 5) &&
      (s.mode != .quick || s.width == 4) &&
      (s.mode != .gen || (Width.sized.bytes? hit.2.size).isSome)) &&
    Machine.isName hit.2.name

set_option maxRecDepth 20000 in
theorem table_sound : machine.entries.all sound = true := by
  unfold sound
  simp only [Machine.isName_eq]
  decide

set_option maxRecDepth 20000 in
theorem table_apart : machine.entries.Pairwise fun earlier later =>
    Pattern.overlaps (machine.patternOf earlier) (machine.patternOf later) = false :=
  machine.pairwise_of_overlaps [7, 6, 5, 4, 3, 2] (fun _ _ both => Bool.not_eq_false _ |>.mp both)
    (by decide)

set_option maxRecDepth 20000 in
theorem table_named : machine.entries.Pairwise fun earlier later =>
    earlier.2.name ≠ later.2.name :=
  Machine.pairwise_of_name (fun _ _ same => not_not.mp same) (by decide)

set_option maxRecDepth 20000 in
theorem table_listed : machine.entries.all (fun hit => hit.2.slots.all fun s =>
    !(s.mode == .list || s.mode == .listRev) || s.width == 0) = true := by decide

section Hit

variable {hit : Page Mode × Entry Mode} (own : hit ∈ machine.ownEntries)

include own

theorem sound_of_own : sound hit = true :=
  List.all_eq_true.mp table_sound hit (machine.mem_ownEntries.mp own).1

theorem entryFits_of_own : machine.entryFits hit = true := by
  have checked := sound_of_own own
  simp only [sound, Bool.and_eq_true] at checked
  exact checked.1.1.1

theorem page_of_own : hit.1.lead = [] ∧ hit.1.gap = 0 ∧ hit.2.post = none := by
  have checked := sound_of_own own
  simp only [sound, Bool.and_eq_true, List.isEmpty_iff, beq_iff_eq, Option.isNone_iff_eq_none]
    at checked
  exact ⟨checked.1.1.2.1.1, checked.1.1.2.1.2, checked.1.1.2.2⟩

theorem proper_of_own {s : Slot Mode} (member : s ∈ hit.2.slots) : Proper hit.2 s := by
  have checked := sound_of_own own
  simp only [sound, Bool.and_eq_true, List.all_eq_true] at checked
  obtain ⟨⟨⟨category, general⟩, quick⟩, sized⟩ := checked.1.2 s member
  exact
    { category
      general := fun mode => by simpa [mode] using general
      quick := fun mode => by simpa [mode] using quick
      sized := fun mode => Option.isSome_iff_exists.mp (by simpa [mode] using sized) }

/-- A register list has no field in the opcode. -/
theorem width_of_list {s : Slot Mode} (member : s ∈ hit.2.slots)
    (list : s.mode = .list ∨ s.mode = .listRev) : s.width = 0 := by
  have checked := List.all_eq_true.mp table_listed hit (machine.mem_ownEntries.mp own).1
  have slot := List.all_eq_true.mp checked s member
  rcases list with mode | mode <;> simpa [mode] using slot

theorem name_of_own : Machine.isName hit.2.name = true := by
  have checked := sound_of_own own
  simp only [sound, Bool.and_eq_true] at checked
  exact checked.2

/-- An entry that matches is the one that is found. -/
theorem find?_of_hits {rest : List UInt8} (hits : machine.hits rest hit = true) :
    machine.ownEntries.find? (machine.hits rest) = some hit := by
  have short (other : Page Mode × Entry Mode) (member : other ∈ machine.ownEntries) :
      machine.opcodeLength other.1 ≤ 4 :=
    Machine.opcodeLength_le_of_entryFits (entryFits_of_own member)
  obtain ⟨first, -, found, -, same | ⟨apart, overlaps⟩⟩ :=
    machine.exists_first_of_hits table_apart short own hits
  · rw [found, same]
  · rw [apart] at overlaps
    exact absurd overlaps (by decide)

end Hit

end CrossAsm.Ns32000

import CrossAsm.Proofs.Readback
import CrossAsm.Target.M6800

/-! The instruction table of the 6800 family: what holds of every entry, and which entries could
be taken for one another. -/

namespace CrossAsm.M6800

theorem compact (variant : Variant) : (machine variant).Compact where
  flat := rfl
  wide := (by decide : 8 ≤ 16)
  rigid mode relative := by cases mode <;> exact nofun
  relative mode width shaped := by cases mode <;> simp_all [machine, shape]
  indexed mode width signed shaped := by cases mode <;> simp_all [machine, shape]
  fixed mode width shaped := by
    rintro rfl
    cases mode <;> simp [machine, shape] at shaped

theorem unindexed (variant : Variant) : (machine variant).Unindexed := fun _ _ => rfl

theorem customFollows (variant : Variant) : (machine variant).CustomFollows := by
  intro entry slot index d
  exact Decoding.readIn_follows d d.config.endian 1

/-- The modes in which the operand of a slot is written. -/
def written : Mode → List Mode
  | .imm8 | .imm16 => [.imm]
  | .direct | .bitClr | .bitSet => [.dir]
  | .extended => [.ext]
  | .rel => [.dir, .ext]
  | .indexed => [.idx]
  | _ => []

theorem accepts_written : ∀ category, ∀ mode ∈ written category, accepts category mode = true := by
  intro category
  cases category <;> decide

def isBit (mode : Mode) : Bool := mode == .bitClr || mode == .bitSet

theorem isBit_iff_custom {mode : Mode} : isBit mode = true ↔ shape mode = .custom := by
  cases mode <;> decide

theorem mode_of_relative {mode : Mode} {width : Width} (shaped : shape mode = .relative width) :
    mode = .rel := by
  cases mode <;> first | rfl | exact nomatch shaped

/-- The bit that a mask byte singles out. -/
def maskBit (mode : Mode) (mask : Nat) : Nat :=
  lowestBit (if mode = .bitClr then 0xFF - mask else mask)

/-- A branch, by its opcode. -/
def isBranch (opcode : UInt8) : Bool := 0x20 ≤ opcode && opcode ≤ 0x2F || opcode == 0x8D

/-- The entries of all members, in table order. -/
def table : List (Page Mode × Entry Mode) := (machine .mc6800).entries

/-- What holds of every entry of the table. -/
def sound (hit : Page Mode × Entry Mode) : Bool :=
  (machine .mc6800).entryFits hit &&
    (hit.1.lead.isEmpty && hit.1.gap == 0 && hit.1.opcodeCells == 1) &&
    hit.2.slots.all (fun s => !(written s.mode).isEmpty && s.width == 0) &&
    (!hit.2.slots.any (·.mode == .rel) ||
      hit.2.slots == [.bare .rel] && isBranch (UInt8.ofNat hit.2.opcode.toNat)) &&
    hit.2.slots.tail.all (!isBit ·.mode) &&
    (match hit.2.slots, hit.2.post with
      | s :: _, some post => (List.range 256).all fun mask =>
          !post mask || maskBit s.mode mask < 8 && bitMask s.mode (maskBit s.mode mask) == mask
      | slots, none => slots.all (!isBit ·.mode)
      | _, _ => false) &&
    Machine.isName hit.2.name

set_option maxRecDepth 20000 in
theorem table_sound : table.all sound = true := by
  unfold sound
  simp only [Machine.isName_eq]
  decide +kernel

set_option maxRecDepth 20000 in
theorem table_ordered : table.Pairwise fun earlier later =>
    (Machine.mayAdmit accepts written earlier.2.slots later.2.slots &&
      earlier.2.name == later.2.name) = false := by
  refine Machine.pairwise_of_name (fun earlier later taken => ?_) (by decide)
  simp only [Bool.not_eq_false, Bool.and_eq_true, beq_iff_eq] at taken
  exact taken.2

section Hit

variable {variant : Variant} {hit : Page Mode × Entry Mode}
  (own : hit ∈ (machine variant).ownEntries)

include own

theorem sound_of_own : sound hit = true := by
  have member := ((machine variant).mem_ownEntries.mp own).1
  exact List.all_eq_true.mp table_sound hit member

theorem entryFits_of_own : (machine variant).entryFits hit = true := by
  have checked := sound_of_own own
  simp only [sound, Bool.and_eq_true] at checked
  exact checked.1.1.1.1.1.1

theorem page_of_own : hit.1.lead = [] ∧ hit.1.gap = 0 ∧ hit.1.opcodeCells = 1 := by
  have checked := sound_of_own own
  simp only [sound, Bool.and_eq_true, List.isEmpty_iff, beq_iff_eq] at checked
  exact ⟨checked.1.1.1.1.1.2.1.1, checked.1.1.1.1.1.2.1.2, checked.1.1.1.1.1.2.2⟩

theorem slot_of_own {s : Slot Mode} (member : s ∈ hit.2.slots) :
    written s.mode ≠ [] ∧ s.width = 0 := by
  have checked := sound_of_own own
  simp only [sound, Bool.and_eq_true, List.all_eq_true] at checked
  simpa using checked.1.1.1.1.2 s member

theorem branch_of_own {s : Slot Mode} (member : s ∈ hit.2.slots) (branch : s.mode = .rel) :
    hit.2.slots = [.bare .rel] ∧ isBranch (UInt8.ofNat hit.2.opcode.toNat) = true := by
  have checked := sound_of_own own
  simp only [sound, Bool.and_eq_true, Bool.or_eq_true, Bool.not_eq_true'] at checked
  rcases checked.1.1.1.2 with none | found
  · simp only [List.any_eq_false, beq_iff_eq] at none
    exact absurd branch (none s member)
  · simpa using found

theorem bit_of_own {s : Slot Mode} {more : List (Slot Mode)} (slots : hit.2.slots = s :: more)
    (bit : isBit s.mode = true) : ∃ post, hit.2.post = some post ∧ ∀ mask < 256, post mask = true →
      maskBit s.mode mask < 8 ∧ bitMask s.mode (maskBit s.mode mask) = mask := by
  have checked := sound_of_own own
  simp only [sound, Bool.and_eq_true, slots] at checked
  have masks := checked.1.2
  cases post : hit.2.post with
  | none => simp [post, bit] at masks
  | some post' =>
    refine ⟨post', rfl, fun mask small holds => ?_⟩
    simp only [post, List.all_eq_true, List.mem_range] at masks
    simpa [holds] using masks mask small

theorem not_bit_of_own {s t : Slot Mode} {more : List (Slot Mode)}
    (slots : hit.2.slots = s :: more) (later : t ∈ more) : isBit t.mode = false := by
  have checked := sound_of_own own
  simp only [sound, Bool.and_eq_true, slots, List.tail_cons, List.all_eq_true] at checked
  simpa using checked.1.1.2 t later

theorem name_of_own : Machine.isName hit.2.name = true := by
  have checked := sound_of_own own
  simp only [sound, Bool.and_eq_true] at checked
  exact checked.2

end Hit

end CrossAsm.M6800

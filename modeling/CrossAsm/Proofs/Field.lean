import CrossAsm.Proofs.Bytes
import CrossAsm.Table

/-! Fields of an opcode. Fields that do not overlap can be written one by one and read back, and
an opcode that an entry covers is the entry's own with the fields it holds written into it. -/

namespace CrossAsm

variable {Mode : Type}

namespace Slot

/-- The opcode bits of the slot when it holds `field`. -/
def place (s : Slot Mode) (field : BitVec 32) : BitVec 32 :=
  (field &&& BitVec.ofNat 32 (twoPow s.width - 1)) <<< s.pos

theorem getLsbD_low (width i : Nat) :
    (BitVec.ofNat 32 (twoPow width - 1)).getLsbD i = (decide (i < 32) && decide (i < width)) := by
  have bit : (twoPow width - 1).testBit i = decide (i < width) := by
    rw [twoPow_eq]
    exact Nat.testBit_two_pow_sub_one width i
  rw [BitVec.getLsbD_ofNat, bit]

theorem getLsbD_mask (s : Slot Mode) (i : Nat) :
    s.mask.getLsbD i = (decide (i < 32) && decide (s.pos ≤ i) && decide (i < s.pos + s.width)) := by
  have bit : (twoPow s.width - 1).testBit (i - s.pos) = decide (i - s.pos < s.width) := by
    rw [twoPow_eq]
    exact Nat.testBit_two_pow_sub_one s.width (i - s.pos)
  rw [mask, BitVec.getLsbD_ofNat, Nat.testBit_shiftLeft, bit]
  by_cases above : s.pos ≤ i
  · have same : i - s.pos < s.width ↔ i < s.pos + s.width := by omega
    simp [above, same]
  · simp [above]

theorem getLsbD_place (s : Slot Mode) (field : BitVec 32) (i : Nat) :
    (s.place field).getLsbD i = (s.mask.getLsbD i && field.getLsbD (i - s.pos)) := by
  rw [place, BitVec.getLsbD_shiftLeft, BitVec.getLsbD_and, getLsbD_low, getLsbD_mask]
  by_cases inside : i < 32 <;> by_cases above : s.pos ≤ i
  · have low : i - s.pos < 32 := by omega
    have same : i - s.pos < s.width ↔ i < s.pos + s.width := by omega
    simp [inside, above, low, same, Bool.and_comm]
  · have under : i < s.pos := by omega
    simp [under, above]
  · simp [inside]
  · simp [inside]

/-- Writing a field changes the slot's own bits only. -/
theorem place_and_mask (s : Slot Mode) (field : BitVec 32) :
    s.place field &&& s.mask = s.place field := by
  apply BitVec.eq_of_getLsbD_eq
  intro i _
  simp only [BitVec.getLsbD_and, getLsbD_place]
  cases s.mask.getLsbD i <;> simp

theorem place_of_width_zero {s : Slot Mode} (bare : s.width = 0) (field : BitVec 32) :
    s.place field = 0#32 := by
  simp [place, bare]

/-- Only as many bits of a field count as the slot is wide. -/
theorem place_congr (s : Slot Mode) {a b : BitVec 32}
    (same : a.toNat % twoPow s.width = b.toNat % twoPow s.width) : s.place a = s.place b := by
  apply BitVec.eq_of_getLsbD_eq
  intro i _
  rw [getLsbD_place, getLsbD_place, getLsbD_mask]
  by_cases above : s.pos ≤ i ∧ i < s.pos + s.width
  · have low : i - s.pos < s.width := by omega
    have bit := congrArg (Nat.testBit · (i - s.pos)) same
    simp only [twoPow_eq] at bit
    have first := Nat.testBit_mod_two_pow a.toNat s.width (i - s.pos)
    have second := Nat.testBit_mod_two_pow b.toNat s.width (i - s.pos)
    rw [← BitVec.testBit_toNat, ← BitVec.testBit_toNat]
    have equal : a.toNat.testBit (i - s.pos) = b.toNat.testBit (i - s.pos) := by
      simpa [low] using (first.symm.trans bit).trans second
    rw [equal]
  · have outside : (decide (i < 32) && decide (s.pos ≤ i) && decide (i < s.pos + s.width)) = false := by
      rw [Bool.and_assoc, Bool.and_eq_false_iff]
      exact .inr (by simpa using above)
    rw [outside, Bool.false_and, Bool.false_and]

theorem place_ofInt (s : Slot Mode) {v : Int} {n : Nat} (inside : s.width ≤ 32)
    (same : v % twoPow s.width = n % twoPow s.width) :
    s.place (BitVec.ofInt 32 v) = s.place (BitVec.ofNat 32 n) := by
  apply s.place_congr
  have divides : (twoPow s.width : Int) ∣ 0x100000000 := by
    rw [twoPow_eq]
    exact Int.natCast_dvd_natCast.mpr (Nat.pow_dvd_pow 2 inside)
  have whole : (((v % 0x100000000).toNat : Nat) : Int) = v % 0x100000000 :=
    Int.toNat_of_nonneg (Int.emod_nonneg v (by decide))
  rw [BitVec.toNat_ofInt, BitVec.toNat_ofNat]
  zify
  change (((v % 0x100000000).toNat : Nat) : Int) % _ = (n : Int) % 0x100000000 % _
  rw [whole, Int.emod_emod_of_dvd v divides, Int.emod_emod_of_dvd (n : Int) divides, same]

@[simp] theorem place_zero (s : Slot Mode) : s.place 0#32 = 0#32 := by simp [place]

theorem testBit_read (s : Slot Mode) (opcode : BitVec 32) (i : Nat) :
    (s.read opcode).testBit i = (decide (i < s.width) && opcode.getLsbD (s.pos + i)) := by
  have outside := BitVec.getLsbD_of_ge opcode (s.pos + i)
  rw [read, BitVec.testBit_toNat, BitVec.getLsbD_ushiftRight, BitVec.getLsbD_and, getLsbD_mask]
  by_cases inside : s.pos + i < 32
  · simp [inside, Bool.and_comm]
  · simp [outside (by omega)]

theorem read_lt (s : Slot Mode) (opcode : BitVec 32) : s.read opcode < twoPow s.width := by
  rw [twoPow_eq]
  apply Nat.lt_pow_two_of_testBit
  intro i high
  simp [testBit_read, Nat.not_lt.mpr high]

theorem read_place (s : Slot Mode) (field : BitVec 32) (inside : s.pos + s.width ≤ 32) :
    s.read (s.place field) = field.toNat % twoPow s.width := by
  apply Nat.eq_of_testBit_eq
  intro i
  rw [twoPow_eq, testBit_read, getLsbD_place, getLsbD_mask]
  have remainder := Nat.testBit_mod_two_pow field.toNat s.width i
  refine Eq.trans ?_ remainder.symm
  by_cases low : i < s.width
  · have word : s.pos + i < 32 := by omega
    simp [low, word, BitVec.testBit_toNat]
  · simp [low]

theorem read_or (s : Slot Mode) (a b : BitVec 32) : s.read (a ||| b) = s.read a ||| s.read b := by
  apply Nat.eq_of_testBit_eq
  intro i
  simp [testBit_read, Bool.and_or_distrib_left]

/-- The bits above a slot do not show in its field. -/
theorem read_mod (s : Slot Mode) {opcode : BitVec 32} {bits : Nat} (inside : s.pos + s.width ≤ bits) :
    s.read (BitVec.ofNat 32 (opcode.toNat % twoPow bits)) = s.read opcode := by
  apply Nat.eq_of_testBit_eq
  intro i
  rw [testBit_read, testBit_read, BitVec.getLsbD_ofNat, twoPow_eq]
  by_cases low : i < s.width
  · have below : s.pos + i < bits := by omega
    have kept := Nat.testBit_mod_two_pow opcode.toNat bits (s.pos + i)
    rw [BitVec.testBit_toNat] at kept
    have same : (opcode.toNat % Nat.pow 2 bits).testBit (s.pos + i) = opcode.getLsbD (s.pos + i) := by
      simpa [below] using kept
    rw [same]
    by_cases word : s.pos + i < 32
    · simp [word]
    · simp [BitVec.getLsbD_of_ge opcode (s.pos + i) (by omega)]
  · simp [low]

/-- Bits outside a slot do not show in its field. -/
theorem read_eq_zero (s : Slot Mode) {opcode : BitVec 32} (apart : opcode &&& s.mask = 0) :
    s.read opcode = 0 := by
  simp [read, apart]

/-- Writing back the field that was read gives the slot's bits of the opcode. -/
theorem place_read (s : Slot Mode) (opcode : BitVec 32) :
    s.place (BitVec.ofNat 32 (s.read opcode)) = opcode &&& s.mask := by
  apply BitVec.eq_of_getLsbD_eq
  intro i bound
  rw [getLsbD_place, BitVec.getLsbD_and, BitVec.getLsbD_ofNat, testBit_read, getLsbD_mask]
  by_cases above : s.pos ≤ i
  · have back : s.pos + (i - s.pos) = i := by omega
    have low : i - s.pos < 32 := by omega
    have same : i - s.pos < s.width ↔ i < s.pos + s.width := by omega
    simp only [back, same, low, bound, above, decide_true, Bool.true_and]
    cases decide (i < s.pos + s.width) <;> simp
  · simp [above]

end Slot

/-! ### All fields of an entry -/

/-- The opcode bits of slots that hold these fields. -/
def placeAll : List (Slot Mode × BitVec 32) → BitVec 32
  | [] => 0
  | (slot, field) :: rest => slot.place field ||| placeAll rest

/-- The opcode bits that a list of slots carries. -/
def slotMask : List (Slot Mode) → BitVec 32
  | [] => 0
  | slot :: slots => slot.mask ||| slotMask slots

theorem Entry.mask_eq (e : Entry Mode) : e.mask = slotMask e.slots := by
  have general (slots : List (Slot Mode)) (start : BitVec 32) :
      slots.foldl (fun m s => m ||| s.mask) start = start ||| slotMask slots := by
    induction slots generalizing start with
    | nil => simp [slotMask]
    | cons slot slots ih => rw [List.foldl_cons, ih, slotMask, BitVec.or_assoc]
  simp [Entry.mask, general]

theorem slotMask_of_bare {slots : List (Slot Mode)} (bare : ∀ s ∈ slots, s.width = 0) :
    slotMask slots = 0#32 := by
  induction slots with
  | nil => rfl
  | cons slot slots ih =>
    have own : slot.mask = 0#32 := by simp [Slot.mask, bare slot (by simp)]
    rw [slotMask, own, ih fun s member => bare s (by simp [member])]
    rfl

theorem placeAll_and_slotMask (fields : List (Slot Mode × BitVec 32)) :
    placeAll fields &&& slotMask (fields.map (·.1)) = placeAll fields := by
  induction fields with
  | nil => simp [placeAll, slotMask]
  | cons head rest ih =>
    have own := head.1.place_and_mask head.2
    apply BitVec.eq_of_getLsbD_eq
    intro i bound
    have ownBit := congrArg (BitVec.getLsbD · i) own
    have restBit := congrArg (BitVec.getLsbD · i) ih
    simp only [BitVec.getLsbD_and] at ownBit restBit
    simp only [placeAll, List.map_cons, slotMask, BitVec.getLsbD_and, BitVec.getLsbD_or]
    revert ownBit restBit
    cases (head.1.place head.2).getLsbD i <;> cases (placeAll rest).getLsbD i <;>
      cases head.1.mask.getLsbD i <;> cases (slotMask (rest.map (·.1))).getLsbD i <;> simp

/-- The fields read from an opcode, written back, are its bits under the slots. -/
theorem placeAll_read (slots : List (Slot Mode)) (opcode : BitVec 32) :
    placeAll (slots.map fun s => (s, BitVec.ofNat 32 (s.read opcode))) =
      opcode &&& slotMask slots := by
  induction slots with
  | nil => simp [placeAll, slotMask]
  | cons slot slots ih =>
    simp only [List.map_cons, placeAll, slotMask, ih, Slot.place_read, BitVec.and_or_distrib_left]

theorem placeAll_append (first second : List (Slot Mode × BitVec 32)) :
    placeAll (first ++ second) = placeAll first ||| placeAll second := by
  induction first with
  | nil => simp [placeAll]
  | cons head rest ih => rw [List.cons_append, placeAll, placeAll, ih, BitVec.or_assoc]

/-- Slots that hold nothing can be left out. -/
theorem placeAll_filter {slots : List (Slot Mode)} {field : Slot Mode → BitVec 32}
    {kept : Slot Mode → Bool}
    (empty : ∀ s ∈ slots, kept s = false → s.place (field s) = 0#32) :
    placeAll ((slots.filter kept).map fun s => (s, field s)) =
      placeAll (slots.map fun s => (s, field s)) := by
  induction slots with
  | nil => rfl
  | cons slot slots ih =>
    have later := ih fun s member => empty s (by simp [member])
    cases own : kept slot with
    | true => simp only [List.filter_cons_of_pos own, List.map_cons, placeAll, later]
    | false =>
      rw [List.filter_cons_of_neg (by simp [own]), later, List.map_cons, placeAll,
        empty slot (by simp) own, BitVec.zero_or]

theorem placeAll_congr {slots : List (Slot Mode)} {first second : Slot Mode → BitVec 32}
    (same : ∀ s ∈ slots, s.place (first s) = s.place (second s)) :
    placeAll (slots.map fun s => (s, first s)) = placeAll (slots.map fun s => (s, second s)) := by
  induction slots with
  | nil => rfl
  | cons slot slots ih =>
    simp only [List.map_cons, placeAll, same slot (by simp),
      ih fun s member => same s (by simp [member])]

theorem placeAll_and_mask {fields : List (Slot Mode × BitVec 32)} {s : Slot Mode}
    (apart : ∀ f ∈ fields, f.1.mask &&& s.mask = 0#32) : placeAll fields &&& s.mask = 0#32 := by
  induction fields with
  | nil => simp [placeAll]
  | cons head rest ih =>
    have own : head.1.place head.2 &&& s.mask = 0#32 := by
      rw [← Slot.place_and_mask, BitVec.and_assoc, apart head (by simp), BitVec.and_zero]
    have later := ih fun f member => apart f (by simp [member])
    rw [placeAll, BitVec.and_comm, BitVec.and_or_distrib_left, BitVec.and_comm s.mask, own,
      BitVec.and_comm s.mask, later]
    rfl

/-- Each of several fields that do not overlap is read back from all of them. -/
theorem Slot.read_placeAll {fields : List (Slot Mode × BitVec 32)} {s : Slot Mode}
    {field : BitVec 32} (disjoint : (fields.map (·.1)).Pairwise fun s t => s.mask &&& t.mask = 0)
    (member : (s, field) ∈ fields) (inside : s.pos + s.width ≤ 32) :
    s.read (placeAll fields) = field.toNat % twoPow s.width := by
  induction fields with
  | nil => simp at member
  | cons head rest ih =>
    obtain ⟨before, disjoint⟩ := List.pairwise_cons.mp disjoint
    rw [placeAll, s.read_or]
    rcases List.mem_cons.mp member with rfl | later
    · have others : placeAll rest &&& s.mask = 0#32 := by
        apply placeAll_and_mask
        intro f present
        rw [BitVec.and_comm]
        exact before f.1 (List.mem_map_of_mem present)
      rw [s.read_place field inside, s.read_eq_zero others, Nat.or_zero]
    · have apart : head.1.mask &&& s.mask = 0#32 := before s (List.mem_map_of_mem later)
      have other : head.1.place head.2 &&& s.mask = 0#32 := by
        rw [← Slot.place_and_mask, BitVec.and_assoc, apart, BitVec.and_zero]
      rw [s.read_eq_zero other, Nat.zero_or, ih disjoint later]

namespace Entry

/-- The fields do not overlap one another or the fixed bits, and lie in an opcode of so many
bits. -/
def fieldsApart (e : Entry Mode) (bits : Nat) : Bool :=
  decide (e.slots.Pairwise fun s t => s.mask &&& t.mask = 0) &&
    e.slots.all (fun s => s.mask &&& e.opcode == 0 && decide (s.pos + s.width ≤ bits)) &&
    decide (e.opcode.toNat < twoPow bits)

section Apart

variable {e : Entry Mode} {bits : Nat} (apart : e.fieldsApart bits = true)

include apart

theorem disjoint_of_fieldsApart : e.slots.Pairwise fun s t => s.mask &&& t.mask = 0 := by
  simp only [fieldsApart, Bool.and_eq_true, decide_eq_true_eq] at apart
  exact apart.1.1

theorem slot_of_fieldsApart {s : Slot Mode} (member : s ∈ e.slots) :
    s.mask &&& e.opcode = 0#32 ∧ s.pos + s.width ≤ bits := by
  simp only [fieldsApart, Bool.and_eq_true, List.all_eq_true, beq_iff_eq, decide_eq_true_eq]
    at apart
  exact apart.1.2 s member

theorem opcode_of_fieldsApart : e.opcode &&& slotMask e.slots = 0#32 := by
  have general (slots : List (Slot Mode)) (each : ∀ s ∈ slots, s.mask &&& e.opcode = 0#32) :
      e.opcode &&& slotMask slots = 0#32 := by
    induction slots with
    | nil => simp [slotMask]
    | cons s slots ih =>
      rw [slotMask, BitVec.and_or_distrib_left, BitVec.and_comm, each s (by simp),
        ih fun t member => each t (by simp [member])]
      rfl
  exact general e.slots fun s member => (slot_of_fieldsApart apart member).1

/-- The opcode with fields written into it holds these fields. -/
theorem read_opcode_placeAll {fields : List (Slot Mode × BitVec 32)} {s : Slot Mode}
    {field : BitVec 32} (word : bits ≤ 32) (slots : fields.map (·.1) = e.slots)
    (member : (s, field) ∈ fields) :
    s.read (e.opcode ||| placeAll fields) = field.toNat % twoPow s.width := by
  have own : s ∈ e.slots := slots ▸ List.mem_map_of_mem member
  obtain ⟨outside, inside⟩ := slot_of_fieldsApart apart own
  have disjoint := disjoint_of_fieldsApart apart
  rw [s.read_or, s.read_eq_zero (BitVec.and_comm e.opcode s.mask ▸ outside), Nat.zero_or]
  exact s.read_placeAll (slots ▸ disjoint) member (by omega)

/-- Fields do not reach beyond the opcode. -/
theorem opcode_placeAll_lt {fields : List (Slot Mode × BitVec 32)}
    (slots : fields.map (·.1) = e.slots) :
    (e.opcode ||| placeAll fields).toNat < twoPow bits := by
  have inside (fields : List (Slot Mode × BitVec 32))
      (each : ∀ f ∈ fields, f.1.pos + f.1.width ≤ bits) : (placeAll fields).toNat < twoPow bits := by
    induction fields with
    | nil => exact twoPow_pos bits
    | cons head rest ih =>
      have bound := each head (by simp)
      have own : (head.1.place head.2).toNat < twoPow bits := by
        rw [twoPow_eq]
        apply Nat.lt_pow_two_of_testBit
        intro i high
        have beyond : ¬i < head.1.pos + head.1.width := by omega
        rw [BitVec.testBit_toNat, Slot.getLsbD_place, Slot.getLsbD_mask]
        simp [beyond]
      have later := ih fun f member => each f (by simp [member])
      rw [twoPow_eq] at own later ⊢
      rw [placeAll, BitVec.toNat_or]
      exact Nat.or_lt_two_pow own later
  have fixed : e.opcode.toNat < twoPow bits := by
    simp only [fieldsApart, Bool.and_eq_true, decide_eq_true_eq] at apart
    exact apart.2
  have written := inside fields fun f member =>
    (slot_of_fieldsApart apart (slots ▸ List.mem_map_of_mem member)).2
  rw [twoPow_eq] at fixed written ⊢
  rw [BitVec.toNat_or]
  exact Nat.or_lt_two_pow fixed written

end Apart

theorem covers_iff (e : Entry Mode) (opcode : BitVec 32) :
    e.covers opcode = true ↔ opcode &&& ~~~slotMask e.slots = e.opcode := by
  simp [covers, mask_eq]

/-- An entry covers its own opcode with fields written into it. -/
theorem covers_placeAll {e : Entry Mode} {fields : List (Slot Mode × BitVec 32)}
    (slots : fields.map (·.1) = e.slots) (apart : e.opcode &&& slotMask e.slots = 0) :
    e.covers (e.opcode ||| placeAll fields) = true := by
  have inside := placeAll_and_slotMask fields
  rw [slots] at inside
  rw [covers_iff]
  apply BitVec.eq_of_getLsbD_eq
  intro i bound
  have fixedBit := congrArg (BitVec.getLsbD · i) apart
  have fieldBit := congrArg (BitVec.getLsbD · i) inside
  simp only [BitVec.getLsbD_and] at fixedBit fieldBit
  simp only [BitVec.getLsbD_and, BitVec.getLsbD_or, BitVec.getLsbD_not, bound, decide_true,
    Bool.true_and]
  revert fixedBit fieldBit
  cases e.opcode.getLsbD i <;> cases (placeAll fields).getLsbD i <;>
    cases (slotMask e.slots).getLsbD i <;> simp

theorem getLsbD_slotMask (slots : List (Slot Mode)) (i : Nat) :
    (slotMask slots).getLsbD i = slots.any (·.mask.getLsbD i) := by
  induction slots with
  | nil => simp [slotMask]
  | cons slot slots ih => simp [slotMask, ih]

/-- An entry with the same opcode and more slots covers what an entry covers. -/
theorem covers_of_subset {e wider : Entry Mode} {opcode : BitVec 32}
    (same : wider.opcode = e.opcode) (subset : ∀ s ∈ e.slots, s ∈ wider.slots)
    (apart : wider.opcode &&& slotMask wider.slots = 0#32) (covered : e.covers opcode = true) :
    wider.covers opcode = true := by
  rw [covers_iff] at covered ⊢
  apply BitVec.eq_of_getLsbD_eq
  intro i bound
  have fixedBit := congrArg (BitVec.getLsbD · i) apart
  have coveredBit := congrArg (BitVec.getLsbD · i) covered
  have inside : (slotMask e.slots).getLsbD i = true → (slotMask wider.slots).getLsbD i = true := by
    simp only [getLsbD_slotMask, List.any_eq_true]
    rintro ⟨s, member, bit⟩
    exact ⟨s, subset s member, bit⟩
  simp only [BitVec.getLsbD_and, BitVec.getLsbD_not, bound, decide_true, Bool.true_and, same]
    at fixedBit coveredBit ⊢
  revert fixedBit coveredBit inside
  cases e.opcode.getLsbD i <;> cases opcode.getLsbD i <;> cases (slotMask e.slots).getLsbD i <;>
    cases (slotMask wider.slots).getLsbD i <;> simp

/-- A covered opcode is the entry's own with the fields it holds. -/
theorem eq_placeAll_of_covers {e : Entry Mode} {opcode : BitVec 32} (covered : e.covers opcode) :
    e.opcode ||| placeAll (e.slots.map fun s => (s, BitVec.ofNat 32 (s.read opcode))) = opcode := by
  rw [covers_iff] at covered
  rw [placeAll_read, ← covered]
  apply BitVec.eq_of_getLsbD_eq
  intro i bound
  simp only [BitVec.getLsbD_and, BitVec.getLsbD_or, BitVec.getLsbD_not, bound, decide_true,
    Bool.true_and]
  cases opcode.getLsbD i <;> cases (slotMask e.slots).getLsbD i <;> rfl

end Entry

end CrossAsm

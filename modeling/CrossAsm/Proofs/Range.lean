import CrossAsm.Listing
import CrossAsm.Proofs.Segment
import CrossAsm.Proofs.Sweep

/-! The instructions of a range are those of the sweep from its start, up to the first that does not
begin below its end. Both read one instruction after the other, and the range has one more reason to
stop: an item without bytes. From whole cells there is none, since every instruction takes up whole
cells and leaves whole cells. -/

namespace CrossAsm

/-! ### Whole cells -/

/-- Reading moves on as far as there is something to read. -/
theorem Decoding.rest_take (n : Nat) (d : Decoding) : (take n d).2.rest = d.rest.drop n := by
  induction n generalizing d with
  | zero => rfl
  | succ n ih =>
    have one : d.byte.2.rest = d.rest.drop 1 := by
      unfold byte
      split
      next b rest ahead => rw [ahead]; rfl
      next ahead =>
        rw [ahead]
        exact ahead
    calc (take (n + 1) d).2.rest
      _ = (take n d.byte.2).2.rest := rfl
      _ = (d.rest.drop 1).drop n := by rw [ih, one]
      _ = d.rest.drop (n + 1) := by rw [List.drop_drop, Nat.add_comm]

namespace Tms32010

theorem rest_decodeCustom (entry : Entry Mode) (slot : Slot Mode) (index : Option UInt8)
    (d : Decoding) : (decodeCustom entry slot index d).2.rest = d.rest := by
  unfold decodeCustom
  dsimp only
  split
  · split <;> rfl
  · split <;> rfl
  · split
    · rfl
    · split <;> rfl

/-- The only operand behind an opcode is an address, which is a word. -/
theorem rest_decodeOperand (entry : Entry Mode) (slot : Slot Mode) (index : Option UInt8)
    (d : Decoding) : (machine.decodeOperand entry slot index d).2.rest =
      d.rest.drop (if slot.mode = .pma then 2 else 0) := by
  cases mode : slot.mode with
  | mem | narp | sachShift =>
    have shape : machine.shape slot.mode = .custom := congrArg machine.shape mode
    simp only [Machine.decodeOperand, shape]
    exact rest_decodeCustom entry slot index d
  | pma =>
    have shape : machine.shape slot.mode = .absolute .word := congrArg machine.shape mode
    simp only [Machine.decodeOperand, shape]
    exact Decoding.rest_take 2 d
  | ar =>
    have shape : machine.shape slot.mode = .register := congrArg machine.shape mode
    rw [Machine.decodeOperand_register index shape rfl]
    rfl
  | shift | port | k1 | k8 | arp =>
    have shape : machine.shape slot.mode = .embedded false := congrArg machine.shape mode
    rw [Machine.decodeOperand_embedded index shape]
    rfl
  | k13 =>
    have shape : machine.shape slot.mode = .embedded true := congrArg machine.shape mode
    rw [Machine.decodeOperand_embedded index shape]
    rfl
  | imm | ind | arReg =>
    have shape : machine.shape slot.mode = .implied := congrArg machine.shape mode
    rw [Machine.decodeOperand_implied index shape]
    rfl

theorem stopOf_whole {entry : Entry Mode} (slots : List (Slot Mode × Option UInt8)) {d : Decoding}
    (whole : 2 ∣ d.rest.length) :
    2 ∣ (machine.stopOf entry (machine.readings entry slots d) d).rest.length := by
  induction slots generalizing d with
  | nil => exact whole
  | cons head slots ih =>
    apply ih
    rw [Reading.stop, rest_decodeOperand, List.length_drop]
    split
    · exact Nat.dvd_sub whole (Nat.dvd_refl 2)
    · exact whole

/-- An instruction that is found in whole words takes up whole words. -/
theorem finish_whole {hit : Page Mode × Entry Mode} (own : hit ∈ machine.ownEntries)
    {rest : List UInt8} (hits : machine.hits rest hit = true) (address : UInt32)
    (whole : 2 ∣ rest.length) : 2 ∣ (machine.finish hit rest address).bytes.length := by
  obtain ⟨code, tail, rfl, two, -, start⟩ := exists_start own hits address
  rw [List.length_append, two] at whole
  have behind : 2 ∣ (machine.finish hit (code ++ tail) address).rest.length := by
    rw [Machine.finish, Machine.course, start]
    exact stopOf_whole _ ((Nat.dvd_add_right (Nat.dvd_refl 2)).mp whole)
  have all := congrArg List.length (machine.finish_append hit (code ++ tail) address customFollows)
  rw [List.length_append, List.length_append, two] at all
  exact (Nat.dvd_add_left behind).mp (all ▸ whole)

theorem decode_whole (symbols : Symbols) (style : Style) {r : Reader} (whole : 2 ∣ r.rest.length) :
    2 ∣ (machine.decode symbols style r).1.bytes.length := by
  cases found : machine.ownEntries.find? (machine.hits r.rest) with
  | some hit =>
    rw [Machine.decode_eq symbols style found]
    exact finish_whole (List.mem_of_find?_eq_some found) (List.find?_some found) r.address whole
  | none =>
    have search : machine.findByOpcode r.rest = none := by
      rw [Machine.findByOpcode_eq, found, Option.map_none]
    simp only [Machine.decode, Machine.findAt, search]
    split
    next enough =>
      rw [List.length_take_of_le enough]
      exact Nat.dvd_refl 2
    · exact Nat.dvd_zero 2

end Tms32010

/-! ### Instructions one behind the other -/

/-- Instructions of whole cells, one behind the other from one place in memory to another. -/
inductive Consecutive : Reader → List Decoded → Reader → Prop
  | nil (r : Reader) : Consecutive r [] r
  | cons {r last : Reader} {item : Decoded} {items : List Decoded} (takes : item.Takes r)
      (whole : r.cell.bytes ∣ item.bytes.length)
      (later : Consecutive (r.skip item.bytes.length) items last) : Consecutive r (item :: items) last

namespace Consecutive

variable {r last : Reader} {items : List Decoded}

/-- The items are cut off the bytes ahead. -/
theorem ahead (run : Consecutive r items last) :
    r.rest = items.flatMap (·.bytes) ++ last.rest := by
  induction run with
  | nil r => rfl
  | @cons r last item items takes whole later ih =>
    rw [List.flatMap_cons, List.append_assoc, ← ih]
    exact (List.prefix_iff_eq_append.mp takes.ahead).symm

theorem address_head? (run : Consecutive r items last) :
    ∀ item ∈ items.head?, item.address = r.address := by
  cases run with
  | nil => nofun
  | cons takes whole later =>
    rintro item ⟨⟩
    exact takes.address

/-- Each item begins where the one before it ends. -/
theorem isChain (run : Consecutive r items last) :
    items.IsChain fun item next =>
      next.address = item.address + UInt32.ofNat (item.bytes.length / r.cell.bytes) := by
  induction run with
  | nil r => exact .nil
  | @cons r last item items takes whole later ih =>
    refine ih.cons fun next first => ?_
    rw [later.address_head? next first, Reader.address_skip_of_dvd takes.ahead.length_le whole,
      takes.address]
    rfl

/-- The run ends as many cells further on as the items take up. -/
theorem address_last (run : Consecutive r items last) :
    last.address = r.address + UInt32.ofNat ((items.flatMap (·.bytes)).length / r.cell.bytes) := by
  induction run with
  | nil r => simp
  | @cons r last item items takes whole later ih =>
    rw [ih, Reader.address_skip_of_dvd takes.ahead.length_le whole, List.flatMap_cons,
      List.length_append, Nat.add_div_of_dvd_right whole, UInt32.ofNat_add, UInt32.add_assoc]
    rfl

/-- A run can be interrupted behind every item. -/
theorem split {front back : List Decoded} (run : Consecutive r (front ++ back) last) :
    ∃ middle, Consecutive r front middle ∧ Consecutive middle back last := by
  induction front generalizing r with
  | nil => exact ⟨r, .nil r, run⟩
  | cons item front ih =>
    cases run with
    | cons takes whole later =>
      obtain ⟨middle, before, after⟩ := ih later
      exact ⟨middle, .cons takes whole before, after⟩

theorem exists_head (run : Consecutive r items last) (ended : last.rest = []) (ahead : r.rest ≠ []) :
    ∃ first, items.head? = some first ∧ first.address = r.address := by
  cases run with
  | nil => exact absurd ended ahead
  | @cons _ _ item _ takes => exact ⟨item, rfl, takes.address⟩

/-- A run to the end of memory that is cut at an address ends with the memory too, unless the next item
does not begin below that address. -/
theorem cut (run : Consecutive r items last) (ended : last.rest = []) (stop : UInt32) :
    ∃ middle, Consecutive r (items.takeWhile (·.address < stop)) middle ∧
      (middle.rest = [] ∨ stop ≤ middle.address) := by
  rw [← List.takeWhile_append_dropWhile (p := (·.address < stop)) (l := items)] at run
  obtain ⟨middle, before, after⟩ := run.split
  refine ⟨middle, before, ?_⟩
  -- The run goes on with the first item that was not taken, if there is one.
  cases left : items.dropWhile (·.address < stop) with
  | nil =>
    rw [left] at after
    cases after
    exact .inl ended
  | cons next more =>
    have first : ¬next.address < stop := by
      have head := List.head?_dropWhile_not (·.address < stop) items
      rw [left] at head
      simpa using head
    rw [left] at after
    rw [← after.address_head? next rfl]
    exact .inr (UInt32.not_lt.mp first)

end Consecutive

/-! ### Sweeps from whole cells -/

namespace Target

/-- The reader has whole cells of the target ahead. -/
structure Aligned (t : Target) (r : Reader) : Prop where
  cell : r.cell = t.config.cell
  whole : r.cell.bytes ∣ r.rest.length

variable {t : Target} {r : Reader}

theorem Aligned.skip (aligned : t.Aligned r) {n : Nat} (whole : r.cell.bytes ∣ n) :
    t.Aligned (r.skip n) where
  cell := aligned.cell
  whole := by
    rw [Reader.skip, List.length_drop]
    exact Nat.dvd_sub aligned.whole whole

variable (symbols : Symbols) (style : Style)

/-- From whole cells an instruction takes whole cells, and moves behind them. -/
theorem decode_aligned (aligned : t.Aligned r) (next : r.hasNext = true) :
    ∃ item, t.decode symbols style r = (item, r.skip item.bytes.length) ∧ item.Takes r ∧
      r.cell.bytes ∣ item.bytes.length := by
  have ahead : 0 < r.rest.length := by simpa [Reader.hasNext, List.length_pos_iff] using next
  have whole : r.cell.bytes ∣ (t.decode symbols style r).1.bytes.length := by
    have cells := aligned.whole
    rw [aligned.cell] at cells ⊢
    cases t with
    | tms32010 => exact Tms32010.decode_whole symbols style cells
    | mc6800 | mc6801 | hd6301 | z80 | ns32000 => exact one_dvd _
  have step := Machine.decode_takes_or_misses t.customFollows (fun _ => t.cell_le_opcodeLength)
    symbols style aligned.cell
  rw [decode] at whole ⊢
  generalize t.machine.decode symbols style r = decoded at step whole ⊢
  obtain ⟨item, behind⟩ := decoded
  rcases step with ⟨takes, rfl⟩ | ⟨misses, -⟩
  · exact ⟨item, rfl, takes, whole⟩
  -- Where something is left, it is a cell at least.
  · exact absurd misses.short (Nat.not_lt.mpr (Nat.le_of_dvd ahead aligned.whole))

theorem consecutive_sweep (aligned : t.Aligned r) (fuel : Nat) :
    Consecutive r (t.machine.sweep symbols style fuel r).1
      (t.machine.sweep symbols style fuel r).2 := by
  induction fuel generalizing r with
  | zero => exact .nil r
  | succ fuel ih =>
    cases next : r.hasNext with
    | false =>
      simp only [Machine.sweep, next]
      exact .nil r
    | true =>
      obtain ⟨item, decoded, takes, whole⟩ := decode_aligned symbols style aligned next
      rw [decode] at decoded
      simp only [Machine.sweep, next, if_true, decoded]
      -- Whole cells less whole cells are whole cells again.
      exact .cons takes whole (ih (aligned.skip whole))

/-- With the same fuel, the range is the part of the sweep in front of the first item that does not
begin below its end. -/
theorem sweepTo_eq (aligned : t.Aligned r) (stop : UInt32) (fuel : Nat) :
    t.sweepTo symbols style stop fuel r =
      (t.machine.sweep symbols style fuel r).1.takeWhile (·.address < stop) := by
  induction fuel generalizing r with
  | zero => rfl
  | succ fuel ih =>
    cases next : r.hasNext with
    | false => simp [sweepTo, Machine.sweep, next]
    | true =>
      obtain ⟨item, decoded, takes, whole⟩ := decode_aligned symbols style aligned next
      -- This takes away the reason to stop that the sweep does not have.
      have some : item.bytes.isEmpty = false := by
        rw [List.isEmpty_eq_false_iff, ← List.length_pos_iff]
        exact Nat.lt_of_lt_of_le r.cell.bytes_pos takes.full
      have swept : t.machine.decode symbols style r = (item, r.skip item.bytes.length) := decoded
      simp only [sweepTo, Machine.sweep, next, decoded, swept, if_true, Bool.true_and,
        List.takeWhile_cons, takes.address, some, Bool.false_eq_true, if_false,
        ih (aligned.skip whole)]

/-- The sweep comes to the end of memory. -/
theorem rest_decodeAll (aligned : t.Aligned r) : (t.decodeAll symbols style r).2.rest = [] := by
  have ended : (t.decodeAll symbols style r).2 = r.skip r.rest.length :=
    (Machine.swept_sweep t.customFollows (fun _ => t.cell_le_opcodeLength) symbols style aligned.cell
      (Nat.le_refl _)).2
  rw [ended, Reader.skip, List.drop_length]

end Target

/-! ### Ranges of loaded images -/

/-- A loaded image is one segment of whole cells. -/
theorem Image.exists_of_load {name : String} {file : List UInt8} {base : UInt32} {skip : Nat}
    {length : Option Nat} {cell : Cell} {image : Image}
    (loaded : load name file base skip length cell = .ok image) :
    ∃ bytes, image = ⟨[⟨name, base, bytes, cell⟩]⟩ ∧ cell.bytes ∣ bytes.length := by
  unfold load at loaded
  dsimp only at loaded
  split at loaded
  · exact nomatch loaded
  · split at loaded
    · exact nomatch loaded
    next enough =>
      split at loaded
      · exact nomatch loaded
      next whole =>
        refine ⟨_, (Except.ok.inj loaded).symm, ?_⟩
        rw [List.length_take_of_le (Nat.not_lt.mp enough)]
        exact Nat.dvd_of_mod_eq_zero (not_not.mp whole)

namespace Target

theorem aligned_goto {t : Target} {s : Segment} (same : s.cell = t.config.cell)
    (whole : s.cell.bytes ∣ s.bytes.length) (address : UInt32) :
    t.Aligned (s.memory.goto address) where
  cell := same
  whole := by
    rw [Memory.goto, Memory.seek, List.length_drop]
    exact Nat.dvd_sub whole (Nat.dvd_mul_left _ _)

theorem exists_of_decodeRange {t : Target} {image : Image} {start stop : UInt32} {symbols : Symbols}
    {style : Style} {items : List Decoded}
    (listed : t.decodeRange image start stop symbols style = .ok items) :
    ∃ segment, image.segmentAt? start = some segment ∧
      t.sweepTo symbols style stop (segment.memory.goto start).rest.length
        (segment.memory.goto start) = items := by
  unfold decodeRange at listed
  split at listed
  · exact nomatch listed
  · split at listed
    · exact nomatch listed
    next segment found => exact ⟨segment, found, Except.ok.inj listed⟩

/-- A range of a loaded image is the sweep from its start, cut where an item does not begin below its
end: this is the longest part of the sweep from the front whose items all do. The items follow one
another without a gap from the start on, and they end with the segment unless the next one would begin
at the end of the range or behind it. -/
theorem decodeRange_cuts_sweep (t : Target) {name : String} {file : List UInt8} {base : UInt32}
    {skip : Nat} {length : Option Nat} {image : Image}
    (loaded : Image.load name file base skip length t.config.cell = .ok image)
    {start stop : UInt32} {symbols : Symbols} {style : Style} {items : List Decoded}
    (listed : t.decodeRange image start stop symbols style = .ok items) :
    ∃ segment, image.segmentAt? start = some segment ∧
      let r := segment.memory.goto start
      let all := (t.decodeAll symbols style r).1
      let taken := items.flatMap (·.bytes)
      (items = all.takeWhile (·.address < stop) ∧
        ∀ more, t.sweepTo symbols style stop (r.rest.length + more) r = items) ∧
      items.head?.map (·.address) = (if start < stop then some start else none) ∧
      (items.IsChain fun item next =>
        next.address = item.address + UInt32.ofNat (item.bytes.length / t.config.cell.bytes)) ∧
      taken <+: r.rest ∧
      (taken = r.rest ∨ stop ≤ start + UInt32.ofNat (taken.length / t.config.cell.bytes)) := by
  obtain ⟨bytes, rfl, whole⟩ := Image.exists_of_load loaded
  obtain ⟨segment, found, listed⟩ := exists_of_decodeRange listed
  obtain rfl := List.mem_singleton.mp (List.mem_of_find?_eq_some found)
  have spans : Segment.Spans _ start :=
    Segment.spans_of_contains (List.find?_some (p := (Segment.contains · start)) found)
  refine ⟨_, found, ?_⟩
  intro r all taken
  have aligned : t.Aligned r := aligned_goto rfl whole start
  have run : Consecutive r all (t.decodeAll symbols style r).2 :=
    consecutive_sweep symbols style aligned _
  have ended := rest_decodeAll symbols style aligned
  have place : r.address = start := Segment.address_goto spans
  have listed : items = all.takeWhile (·.address < stop) :=
    listed.symm.trans (sweepTo_eq symbols style aligned stop r.rest.length)
  obtain ⟨middle, before, stopped⟩ := run.cut ended stop
  rw [← listed] at before
  refine ⟨⟨listed, fun more => ?_⟩, ?_, before.isChain, ⟨_, before.ahead.symm⟩, ?_⟩
  · have finished : (t.decodeAll symbols style r).2.hasNext = false := by
      rw [Reader.hasNext, ended]
      rfl
    rw [sweepTo_eq symbols style aligned, Machine.sweep_add finished, listed]
    rfl
  · have ahead : r.rest ≠ [] := by simpa [Reader.hasNext] using Segment.hasNext_goto spans
    obtain ⟨first, head, address⟩ := run.exists_head ended ahead
    rw [listed, List.head?_takeWhile, head, Option.filter_some, address, place]
    by_cases below : start < stop
    · simp [below, address, place]
    · simp [below]
  · rcases stopped with exhausted | behind
    · exact .inl (by rw [before.ahead, exhausted, List.append_nil])
    · rw [before.address_last, place] at behind
      exact .inr behind

/-- A branch and the instruction behind it are listed. The branch that memory cuts short begins at the
end of the range. -/
theorem decodeRange_cuts_sweep_branch :
    let file : List UInt8 := [0x12, 0x34, 0xF9, 0x00, 0x01, 0x03, 0x7F, 0x80, 0xF9, 0x00]
    let image : Image := ⟨[⟨"rom", 0x100, file.drop 2, .word⟩]⟩
    let items : List Decoded :=
      [⟨0x100, [0xF9, 0x00, 0x01, 0x03], "B", [">103"], none⟩, ⟨0x102, [0x7F, 0x80], "NOP", [], none⟩]
    Image.load "rom" file 0x100 2 none .word = .ok image ∧
      tms32010.decodeRange image 0x100 0x103 ∅ {} = .ok items ∧
      ∃ segment, image.segmentAt? 0x100 = some segment ∧ items =
        (tms32010.decodeAll ∅ {} (segment.memory.goto 0x100)).1.takeWhile (·.address < 0x103) := by
  intro file image items
  have loaded : Image.load "rom" file 0x100 2 none tms32010.config.cell = .ok image := by
    decide
  have listed : tms32010.decodeRange image 0x100 0x103 ∅ {} = .ok items := by decide
  obtain ⟨segment, found, ⟨cut, -⟩, -⟩ := decodeRange_cuts_sweep tms32010 loaded listed
  exact ⟨loaded, listed, segment, found, cut⟩

end Target

end CrossAsm

import CrossAsm.Proofs.Completeness

/-! The linear sweep cuts memory into items. What one decoding takes is exactly what the reader moves
over, so nothing is lost and nothing is decoded twice, and every step moves on. -/

namespace CrossAsm

variable {Mode Reg : Type}

/-- The item takes the bytes that memory begins with at the reader. -/
structure Decoded.Takes (item : Decoded) (r : Reader) : Prop where
  address : item.address = r.address
  ahead : item.bytes <+: r.rest
  full : r.cell.bytes ≤ item.bytes.length
  unknown : ∀ f, item.fault = some f → f.cause = .unknownInstruction →
    item.bytes.length = r.cell.bytes

/-- The item stands for what is left of memory, which is not a whole cell. -/
structure Decoded.Misses (item : Decoded) (r : Reader) : Prop where
  address : item.address = r.address
  empty : item.bytes = []
  fault : item.fault = some (Cause.noMemory.located 0)
  short : r.rest.length < r.cell.bytes

/-- The items that stand one behind the other from the reader to the end of memory. -/
inductive Swept : Reader → List Decoded → Prop
  | done {r : Reader} (empty : r.rest = []) : Swept r []
  | lone {r : Reader} {item : Decoded} (left : r.rest ≠ []) (misses : item.Misses r) : Swept r [item]
  | cons {r : Reader} {item : Decoded} {items : List Decoded} (takes : item.Takes r)
      (later : Swept (r.skip item.bytes.length) items) : Swept r (item :: items)

@[simp] theorem Reader.skip_zero (r : Reader) : r.skip 0 = r := by
  simp [skip]

theorem Reader.skip_skip (r : Reader) (n k : Nat) : (r.skip n).skip k = r.skip (n + k) := by
  simp only [skip, List.length_drop, List.drop_drop, Reader.mk.injEq, true_and, and_true]
  omega

theorem Reader.skip_all {r : Reader} {n : Nat} (all : r.rest.length ≤ n) :
    r.skip n = r.skip r.rest.length := by
  simp [skip, Nat.min_eq_right all, List.drop_eq_nil_of_le all]

/-! ### One step -/

namespace Machine

variable {m : Machine Mode Reg}

/-- One decoding takes at least a cell and moves behind what it took, unless less than a cell is
left. -/
theorem decode_takes_or_misses (custom : m.CustomFollows)
    (cells : ∀ hit ∈ m.ownEntries, m.config.cell.bytes ≤ m.opcodeLength hit.1) (symbols : Symbols)
    (style : Style) {r : Reader} (same : r.cell = m.config.cell) :
    let (item, next) := m.decode symbols style r
    (item.Takes r ∧ next = r.skip item.bytes.length) ∨
      (item.Misses r ∧ next = r.skip r.cell.bytes) := by
  cases found : m.ownEntries.find? (m.hits r.rest) with
  | some hit =>
    rw [decode_eq symbols style found]
    have follows := m.finish_follows hit r.rest r.address custom
    refine .inl ⟨⟨rfl, ?_, ?_, fun f faulty unknown => ?_⟩, rfl⟩
    · exact ⟨_, m.finish_append hit r.rest r.address custom⟩
    · rw [same]
      exact (cells hit (List.mem_of_find?_eq_some found)).trans
        (m.opcodeLength_le_finish hit r.rest r.address custom (List.find?_some found))
    -- The state an entry is found in has no fault, and reading operands does not give this one.
    · rcases follows.known f faulty with before | known
      · simp [decoding] at before
      · exact absurd unknown known
  | none =>
    have search : m.findByOpcode r.rest = none := by rw [findByOpcode_eq, found, Option.map_none]
    simp only [decode, findAt, search]
    by_cases whole : m.config.cell.bytes ≤ r.rest.length
    · have length : (r.rest.take m.config.cell.bytes).length = m.config.cell.bytes :=
        List.length_take_of_le whole
      simp only [whole, if_true]
      refine .inl ⟨⟨rfl, List.take_prefix _ _, ?_, fun _ _ _ => ?_⟩, ?_⟩
      · rw [length, same]
      · rw [length, same]
      · rw [length]
    · simp only [whole, if_false]
      refine .inr ⟨⟨rfl, rfl, rfl, ?_⟩, ?_⟩
      · rw [same]
        omega
      · rw [same]

/-! ### The whole sweep -/

/-- A sweep that has come to the end of memory is the same with more fuel. -/
theorem sweep_add {symbols : Symbols} {style : Style} {r : Reader} {fuel : Nat}
    (ended : (m.sweep symbols style fuel r).2.hasNext = false) (more : Nat) :
    m.sweep symbols style (fuel + more) r = m.sweep symbols style fuel r := by
  induction fuel generalizing r with
  | zero =>
    have none : r.hasNext = false := ended
    cases more with
    | zero => rfl
    | succ more => simp [sweep, none]
  | succ fuel ih =>
    rw [Nat.add_right_comm]
    cases next : r.hasNext with
    | false => simp [sweep, next]
    | true =>
      simp only [sweep, next, if_true] at ended ⊢
      rw [ih ended]

/-- With as much fuel as there are bytes, a sweep cuts all of them into items. -/
theorem swept_sweep (custom : m.CustomFollows)
    (cells : ∀ hit ∈ m.ownEntries, m.config.cell.bytes ≤ m.opcodeLength hit.1) (symbols : Symbols)
    (style : Style) {fuel : Nat} {r : Reader} (same : r.cell = m.config.cell)
    (enough : r.rest.length ≤ fuel) :
    Swept r (m.sweep symbols style fuel r).1 ∧
      (m.sweep symbols style fuel r).2 = r.skip r.rest.length := by
  induction fuel generalizing r with
  | zero =>
    have empty : r.rest = [] := List.length_eq_zero_iff.mp (Nat.le_zero.mp enough)
    exact ⟨.done empty, by simp [sweep, empty]⟩
  | succ fuel ih =>
    cases next : r.hasNext with
    | false =>
      have empty : r.rest = [] := by simpa [Reader.hasNext] using next
      simp only [sweep, next, Bool.false_eq_true, if_false]
      exact ⟨.done empty, by simp [empty]⟩
    | true =>
      have left : r.rest ≠ [] := by simpa [Reader.hasNext] using next
      have some := List.length_pos_iff.mpr left
      have wide : 0 < r.cell.bytes := by cases r.cell <;> decide
      have step := decode_takes_or_misses custom cells symbols style same
      simp only [sweep, next, if_true]
      generalize m.decode symbols style r = decoded at step ⊢
      obtain ⟨item, behind⟩ := decoded
      rcases step with ⟨takes, rfl⟩ | ⟨misses, rfl⟩
      · have inside := takes.ahead.length_le
        have full := takes.full
        have rest : (r.skip item.bytes.length).rest.length = r.rest.length - item.bytes.length := by
          simp [Reader.skip]
        obtain ⟨swept, ended⟩ := @ih (r.skip item.bytes.length) same (by omega)
        refine ⟨.cons takes swept, ended.trans ?_⟩
        rw [Reader.skip_skip, rest, Nat.add_sub_of_le inside]
      -- Nothing is left behind the bytes that are no whole cell.
      · have short := misses.short
        have all := Reader.skip_all (Nat.le_of_lt short)
        have none : (r.skip r.cell.bytes).hasNext = false := by
          simp [Reader.hasNext, Reader.skip, List.drop_eq_nil_of_le (Nat.le_of_lt short)]
        have ended : m.sweep symbols style fuel (r.skip r.cell.bytes) = ([], r.skip r.cell.bytes) := by
          cases fuel with
          | zero => rfl
          | succ fuel => simp [sweep, none]
        rw [ended]
        exact ⟨.lone left misses, all⟩

end Machine

/-! ### What the items of a sweep are -/

namespace Swept

variable {r : Reader} {items : List Decoded} (swept : Swept r items)

include swept

/-- Each item stands behind those before it. -/
theorem address_eq {before after : List Decoded} {item : Decoded}
    (split : items = before ++ item :: after) :
    item.address = r.base +
      UInt32.ofNat ((r.offset + (before.flatMap (·.bytes)).length) / r.cell.bytes) := by
  induction swept generalizing before with
  | done empty => simp at split
  | @lone r item' left misses =>
    obtain ⟨rfl, same, -⟩ : before = [] ∧ item' = item ∧ after = [] := by
      cases before <;> simp_all
    simpa [same, Reader.address] using misses.address
  | @cons r first items takes later ih =>
    cases before with
    | nil =>
      obtain ⟨rfl, -⟩ := List.cons.inj split
      simpa [Reader.address] using takes.address
    | cons head before =>
      obtain ⟨rfl, rest⟩ := List.cons.inj split
      rw [ih rest, List.flatMap_cons, List.length_append]
      simp only [Reader.skip, Nat.min_eq_left takes.ahead.length_le, Nat.add_assoc]

/-- An unknown instruction is one cell. -/
theorem length_of_unknown {item : Decoded} (member : item ∈ items) {f : Fault}
    (faulty : item.fault = some f) (unknown : f.cause = .unknownInstruction) :
    item.bytes.length = r.cell.bytes := by
  induction swept with
  | done empty => simp at member
  | lone left misses =>
    obtain rfl := List.mem_singleton.mp member
    obtain rfl := Option.some.inj (misses.fault.symm.trans faulty)
    simp [Cause.located] at unknown
  | cons takes later ih =>
    rcases List.mem_cons.mp member with rfl | member
    · exact takes.unknown f faulty unknown
    · exact ih member

/-- The items are all that is ahead of the reader, but for a last byte that is no whole cell. -/
theorem covers :
    (items.flatMap (·.bytes) = r.rest ∧ ∀ item ∈ items, r.cell.bytes ≤ item.bytes.length) ∨
      r.cell = .word ∧ ∃ before item last, items = before ++ [item] ∧ item.bytes = [] ∧
        item.fault = some (Cause.noMemory.located 0) ∧
        before.flatMap (·.bytes) ++ [last] = r.rest ∧
        ∀ item ∈ before, r.cell.bytes ≤ item.bytes.length := by
  induction swept with
  | done empty => exact .inl ⟨empty.symm, by simp⟩
  | @lone r item left misses =>
    have some := List.length_pos_iff.mpr left
    have short := misses.short
    cases cell : r.cell with
    | byte =>
      rw [cell, Cell.bytes] at short
      omega
    | word =>
      rw [cell, Cell.bytes] at short
      obtain ⟨last, rest⟩ := List.length_eq_one_iff.mp (show r.rest.length = 1 by omega)
      exact .inr ⟨rfl, [], item, last, rfl, misses.empty, misses.fault, rest.symm, by simp⟩
  | @cons r item items takes later ih =>
    have whole : item.bytes ++ (r.skip item.bytes.length).rest = r.rest :=
      List.prefix_iff_eq_append.mp takes.ahead
    rcases ih with ⟨covered, full⟩ | ⟨word, before, item', last, rfl, empty, fault, covered, full⟩
    · refine .inl ⟨by rw [List.flatMap_cons, covered, whole], fun other member => ?_⟩
      rcases List.mem_cons.mp member with rfl | member
      · exact takes.full
      · exact full other member
    · refine .inr ⟨word, item :: before, item', last, rfl, empty, fault, ?_, fun other member => ?_⟩
      · rw [List.flatMap_cons, List.append_assoc, covered, whole]
      · rcases List.mem_cons.mp member with rfl | member
        · exact takes.full
        · exact full other member

/-- Without faults the items are all that is ahead. -/
theorem covers_of_clean (clean : ∀ item ∈ items, item.fault = none) :
    items.flatMap (·.bytes) = r.rest := by
  rcases swept.covers with ⟨covered, -⟩ | ⟨-, before, item, last, rfl, -, fault, -⟩
  · exact covered
  · simp [clean item (by simp)] at fault

end Swept

namespace Target

/-- A sweep from any place partitions the memory ahead of it: it ends with the memory whatever the
fuel, its items are the bytes ahead in order, each stands at the address of its first byte and takes
a cell at least, and an unknown instruction is one cell. Where cells are words, a last byte that is
none is reported as an item without bytes. -/
theorem decodeAll_partitions (t : Target) (symbols : Symbols) (style : Style) (base : UInt32)
    (bytes : List UInt8) (offset : Nat) :
    let r := Memory.seek ⟨base, bytes, t.config.cell⟩ offset
    let items := (t.decodeAll symbols style r).1
    let last := (t.decodeAll symbols style r).2
    let unit := t.config.cell.bytes
    (last.hasNext = false ∧ last.offset = bytes.length ∧ ∀ more,
        t.machine.sweep symbols style (r.rest.length + more) r = t.decodeAll symbols style r) ∧
      ((items.flatMap (·.bytes) = bytes.drop offset ∧ ∀ item ∈ items, unit ≤ item.bytes.length) ∨
        t.config.cell = .word ∧ ∃ before item final, items = before ++ [item] ∧ item.bytes = [] ∧
          item.fault = some (Cause.noMemory.located 0) ∧
          before.flatMap (·.bytes) ++ [final] = bytes.drop offset ∧
          ∀ item ∈ before, unit ≤ item.bytes.length) ∧
      (∀ before item after, items = before ++ item :: after → item.address =
        base + UInt32.ofNat ((offset + (before.flatMap (·.bytes)).length) / unit)) ∧
      ∀ item ∈ items, ∀ f, item.fault = some f → f.cause = .unknownInstruction →
        item.bytes.length = unit := by
  intro r items last unit
  obtain ⟨swept, ended⟩ : Swept r items ∧ last = r.skip r.rest.length :=
    Machine.swept_sweep t.customFollows (fun _ => t.cell_le_opcodeLength) symbols style rfl
      (Nat.le_refl _)
  have finished : last.hasNext = false := by
    rw [ended]
    simp [Reader.hasNext, Reader.skip]
  refine ⟨⟨finished, ?_, fun more => Machine.sweep_add finished more⟩, swept.covers, ?_, ?_⟩
  · rw [ended]
    simp only [Reader.skip, r, Memory.seek, List.length_drop]
    omega
  · intro before item after split
    have place := swept.address_eq split
    -- Where there is an item, the offset lies inside the memory.
    have inside : offset < bytes.length := by
      by_contra outside
      have empty : r.rest = [] := List.drop_eq_nil_of_le (Nat.le_of_not_lt outside)
      have nothing : items = [] := by
        simp [items, decodeAll, Machine.decodeAll, Machine.sweep, empty]
      simp [nothing] at split
    rw [place]
    simp only [r, Memory.seek, Nat.min_eq_left (Nat.le_of_lt inside), unit]
  · intro item member f faulty unknown
    exact swept.length_of_unknown member faulty unknown

end Target

end CrossAsm

import CrossAsm.Decoding
import CrossAsm.Proofs.Bytes

/-! Reading an instruction. A read that records no fault found the bytes it asked for, takes
exactly these from the memory ahead, and keeps everything that is known about the instruction. -/

namespace CrossAsm.Decoding

/-- The state after the next `n` bytes. -/
def past (d : Decoding) (n : Nat) : Decoding :=
  { d with bytes := d.bytes ++ d.rest.take n, rest := d.rest.drop n }

section Past

variable (d : Decoding) (n : Nat)

@[simp] theorem past_config : (d.past n).config = d.config := rfl

@[simp] theorem past_address : (d.past n).address = d.address := rfl

@[simp] theorem past_opcode : (d.past n).opcode = d.opcode := rfl

@[simp] theorem past_gapBytes : (d.past n).gapBytes = d.gapBytes := rfl

@[simp] theorem past_bytes : (d.past n).bytes = d.bytes ++ d.rest.take n := rfl

@[simp] theorem past_rest : (d.past n).rest = d.rest.drop n := rfl

@[simp] theorem past_fault : (d.past n).fault = d.fault := rfl

@[simp] theorem past_zero : d.past 0 = d := by simp [past]

end Past

theorem past_past (d : Decoding) (m n : Nat) : (d.past m).past n = d.past (m + n) := by
  simp [past, List.take_add, List.append_assoc]

theorem fail_fault_ne_none (d : Decoding) (cause : Cause) : (d.fail cause).fault ≠ none := by
  simp [fail]

/-- The later state comes from the earlier one by reading. -/
structure Follows (d later : Decoding) : Prop where
  config : later.config = d.config
  address : later.address = d.address
  opcode : later.opcode = d.opcode
  bytes : later.bytes ++ later.rest = d.bytes ++ d.rest
  grows : d.bytes <+: later.bytes
  gap : later.gapBytes <:+ d.gapBytes
  fault : later.fault = none → d.fault = none
  /-- An instruction that is being read is known. -/
  known : ∀ f, later.fault = some f → d.fault = some f ∨ f.cause ≠ .unknownInstruction

namespace Follows

theorem refl (d : Decoding) : Follows d d :=
  ⟨rfl, rfl, rfl, rfl, List.prefix_refl _, List.suffix_refl _, id, fun _ => .inl⟩

theorem trans {a b c : Decoding} (first : Follows a b) (second : Follows b c) : Follows a c where
  config := second.config.trans first.config
  address := second.address.trans first.address
  opcode := second.opcode.trans first.opcode
  bytes := second.bytes.trans first.bytes
  grows := first.grows.trans second.grows
  gap := second.gap.trans first.gap
  fault clean := first.fault (second.fault clean)
  known f found := (second.known f found).elim (first.known f) .inr

theorem past (d : Decoding) (n : Nat) : Follows d (d.past n) where
  config := rfl
  address := rfl
  opcode := rfl
  bytes := by simp
  grows := List.prefix_append _ _
  gap := List.suffix_refl _
  fault := id
  known _ := .inl

theorem fail (d : Decoding) (cause : Cause) (known : cause ≠ .unknownInstruction := by decide) :
    Follows d (d.fail cause) where
  config := rfl
  address := rfl
  opcode := rfl
  bytes := rfl
  grows := List.prefix_refl _
  gap := List.suffix_refl _
  fault clean := absurd clean (fail_fault_ne_none d cause)
  known f found := by
    cases recorded : d.fault with
    | some earlier =>
      left
      simpa [Decoding.fail, recorded] using found
    | none =>
      right
      obtain rfl : cause.located d.bytes.length = f := by simpa [Decoding.fail, recorded] using found
      exact known

end Follows

/-! ### Bytes and numbers -/

theorem byte_cons {d : Decoding} {b : UInt8} {rest : List UInt8} (ahead : d.rest = b :: rest) :
    d.byte = (b, d.past 1) := by
  simp [byte, past, ahead]

theorem byte_follows (d : Decoding) : Follows d d.byte.2 := by
  cases ahead : d.rest with
  | nil =>
    simp only [byte, ahead]
    exact Follows.fail d .noMemory
  | cons b rest =>
    rw [byte_cons ahead]
    exact Follows.past d 1

theorem take_eq (d : Decoding) {n : Nat} (enough : n ≤ d.rest.length) :
    take n d = (d.rest.take n, d.past n) := by
  induction n generalizing d with
  | zero => simp [take]
  | succ n ih =>
    obtain ⟨b, rest, ahead⟩ := List.exists_cons_of_length_pos (show 0 < d.rest.length by omega)
    have more : n ≤ (d.past 1).rest.length := by
      simp only [past_rest, List.length_drop]
      omega
    simp only [take, byte_cons ahead, ih _ more, past_past, past_rest, ahead, List.drop_one,
      List.tail_cons, List.take_succ_cons, Nat.add_comm 1 n]

theorem take_follows (d : Decoding) (n : Nat) : Follows d (take n d).2 := by
  induction n generalizing d with
  | zero => exact Follows.refl d
  | succ n ih => exact (byte_follows d).trans (ih d.byte.2)

theorem enough_of_take {d : Decoding} {n : Nat} (clean : (take n d).2.fault = none) :
    n ≤ d.rest.length := by
  induction n generalizing d with
  | zero => exact Nat.zero_le _
  | succ n ih =>
    cases ahead : d.rest with
    | nil =>
      have lost : (d.fail .noMemory).fault = none := by
        have failed : d.byte.2 = d.fail .noMemory := by simp [byte, ahead]
        have same : (take (n + 1) d).2 = (take n (d.fail .noMemory)).2 := by
          rw [← failed]
          rfl
        exact (take_follows _ n).fault (same ▸ clean)
      exact absurd lost (fail_fault_ne_none d .noMemory)
    | cons b rest =>
      have later : (take n (d.past 1)).2.fault = none := by
        have same : (take (n + 1) d).2 = (take n (d.past 1)).2 := by
          simp [take, byte_cons ahead]
        exact same ▸ clean
      have bound := ih later
      simp only [past_rest, ahead, List.drop_one, List.tail_cons] at bound
      simpa using bound

theorem readIn_eq (d : Decoding) (e : Endian) {n : Nat} (enough : n ≤ d.rest.length)
    (short : n ≤ 4) : d.readIn e n = (e.number (d.rest.take n), d.past n) := by
  have bound : e.number (d.rest.take n) < 0x100000000 := by
    apply e.number_lt_word
    rw [List.length_take]
    omega
  simp only [readIn, take_eq d enough, Nat.mod_eq_of_lt bound]

theorem readIn_follows (d : Decoding) (e : Endian) (n : Nat) : Follows d (d.readIn e n).2 :=
  take_follows d n

theorem enough_of_readIn {d : Decoding} {e : Endian} {n : Nat}
    (clean : (d.readIn e n).2.fault = none) : n ≤ d.rest.length :=
  enough_of_take clean

/-! ### Displacements -/

theorem readDisp_gap {d : Decoding} {n : Nat} (room : n ≤ d.gapBytes.length) (short : n ≤ 4) :
    d.readDisp n = (d.config.endian.number (d.gapBytes.take n),
      { d with gapBytes := d.gapBytes.drop n }) := by
  have bound : d.config.endian.number (d.gapBytes.take n) < 0x100000000 := by
    apply Endian.number_lt_word
    rw [List.length_take]
    omega
  simp only [readDisp, room, ite_true, Nat.mod_eq_of_lt bound]

theorem readDisp_rest {d : Decoding} {n : Nat} (full : ¬n ≤ d.gapBytes.length) :
    d.readDisp n = d.read n := by
  simp [readDisp, full]

theorem readDisp_follows (d : Decoding) (n : Nat) : Follows d (d.readDisp n).2 := by
  unfold readDisp
  split
  · exact ⟨rfl, rfl, rfl, rfl, List.prefix_refl _, List.drop_suffix _ _, id, fun _ => .inl⟩
  · exact readIn_follows d _ n

theorem readLadder_follows (d : Decoding) : Follows d d.readLadder.2 := by
  unfold readLadder
  split
  · exact Follows.fail d .noMemory
  · dsimp only
    split
    · exact (byte_follows d).trans (Follows.fail _ .illegalConstant)
    next rung _ =>
      have more := (byte_follows d).trans (take_follows d.byte.2 (rung.bytes - 1))
      dsimp only
      split
      · exact more.trans (Follows.fail _ .illegalConstant)
      · exact more

end CrossAsm.Decoding

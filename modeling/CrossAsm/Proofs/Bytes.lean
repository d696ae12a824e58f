import CrossAsm.Bytes
import Mathlib

/-! Byte orders are inverse in both directions on numbers of up to four bytes, and a number
read in two's complement fits the field it was read from. -/

namespace CrossAsm

@[simp] theorem twoPow_zero : twoPow 0 = 1 := rfl

theorem twoPow_eq (n : Nat) : twoPow n = Nat.pow 2 n := Nat.one_shiftLeft n

theorem twoPow_pos (n : Nat) : 0 < twoPow n := by
  rw [twoPow_eq]
  exact Nat.pow_pos (by decide)

theorem twoPow_add (m n : Nat) : twoPow (m + n) = twoPow m * twoPow n := by
  simp only [twoPow_eq]
  exact Nat.pow_add 2 m n

theorem twoPow_succ (n : Nat) : twoPow (n + 1) = 2 * twoPow n := by
  rw [Nat.add_comm, twoPow_add]
  rfl

theorem twoPow_le {m n : Nat} (below : m ≤ n) : twoPow m ≤ twoPow n := by
  simp only [twoPow_eq]
  exact Nat.pow_le_pow_right (by decide) below

namespace Endian

@[simp] theorem length_toLittle (count n : Nat) : (toLittle count n).length = count := by
  induction count generalizing n with
  | zero => rfl
  | succ count ih => simp [toLittle, ih]

theorem ofLittle_toLittle (count n : Nat) :
    ofLittle (toLittle count n) = n % twoPow (8 * count) := by
  induction count generalizing n with
  | zero => simp [toLittle, ofLittle, Nat.mod_one]
  | succ count ih =>
    have split : twoPow (8 * (count + 1)) = 256 * twoPow (8 * count) := by
      rw [Nat.mul_succ, Nat.add_comm, twoPow_add]
      rfl
    rw [toLittle, ofLittle, ih, split, Nat.mod_mul, UInt8.toNat_ofNat']

theorem ofLittle_lt (bytes : List UInt8) : ofLittle bytes < twoPow (8 * bytes.length) := by
  induction bytes with
  | nil => decide
  | cons b rest ih =>
    have split : twoPow (8 * (rest.length + 1)) = 256 * twoPow (8 * rest.length) := by
      rw [Nat.mul_succ, Nat.add_comm, twoPow_add]
      rfl
    have small := b.toNat_lt
    simp only [ofLittle, List.length_cons, split]
    omega

theorem toLittle_ofLittle (bytes : List UInt8) :
    toLittle bytes.length (ofLittle bytes) = bytes := by
  induction bytes with
  | nil => rfl
  | cons b rest ih =>
    have small := b.toNat_lt
    have quotient : (b.toNat + 256 * ofLittle rest) / 256 = ofLittle rest := by omega
    have low : UInt8.ofNat (b.toNat + 256 * ofLittle rest) = b := by
      apply UInt8.toNat_inj.mp
      rw [UInt8.toNat_ofNat']
      omega
    simp only [List.length_cons, ofLittle, toLittle, quotient, ih, low]

theorem number_lt (e : Endian) (bytes : List UInt8) :
    e.number bytes < twoPow (8 * bytes.length) := by
  cases e with
  | big => simpa [number] using ofLittle_lt bytes.reverse
  | little => exact ofLittle_lt bytes

/-- One cell of memory is below the bound of its bytes, so four bytes never exceed a word. -/
@[simp] theorem number_singleton (e : Endian) (b : UInt8) : e.number [b] = b.toNat := by
  cases e <;> simp [number, ofLittle]

theorem number_lt_word (e : Endian) {bytes : List UInt8} (short : bytes.length ≤ 4) :
    e.number bytes < 0x100000000 :=
  Nat.lt_of_lt_of_le (e.number_lt bytes) (twoPow_le (n := 32) (by omega))

@[simp] theorem length_put (e : Endian) (count : Nat) (value : Int) :
    (e.put count value).length = min count 4 := by
  cases e <;> simp [put, bytes]

/-- The bytes of a number are those of its remainder modulo the bytes there are. -/
theorem number_put (e : Endian) {count : Nat} (value : Int) (short : count ≤ 4) :
    (e.number (e.put count value) : Int) = value % twoPow (8 * count) := by
  have low : (e.number (e.put count value) : Nat)
      = (value % 0x100000000).toNat % twoPow (8 * count) := by
    cases e <;> simp [put, bytes, number, ofLittle_toLittle, Nat.min_eq_left short]
  have divides : (twoPow (8 * count) : Int) ∣ 0x100000000 := by
    refine ⟨twoPow (32 - 8 * count), ?_⟩
    have split : twoPow (8 * count) * twoPow (32 - 8 * count) = 0x100000000 := by
      rw [← twoPow_add, Nat.add_sub_cancel' (by omega)]
      rfl
    rw [← Int.natCast_mul, split]
    rfl
  rw [low, Int.natCast_emod, Int.toNat_of_nonneg (Int.emod_nonneg _ (by decide)),
    Int.emod_emod_of_dvd _ divides]

theorem number_put_of_lt (e : Endian) {count n : Nat} (short : count ≤ 4)
    (small : n < twoPow (8 * count)) : e.number (e.put count n) = n := by
  have number := e.number_put n short
  rw [Int.emod_eq_of_lt (by omega) (by omega)] at number
  exact_mod_cast number

theorem put_number (e : Endian) {bytes : List UInt8} (short : bytes.length ≤ 4) :
    e.put bytes.length (e.number bytes) = bytes := by
  have word : ((e.number bytes : Int) % 0x100000000).toNat = e.number bytes := by
    have bound := e.number_lt_word short
    omega
  cases e with
  | big =>
    have back := toLittle_ofLittle bytes.reverse
    rw [List.length_reverse] at back
    simp only [put, word, Nat.min_eq_left short]
    simp only [Endian.bytes, number, back, List.reverse_reverse]
  | little =>
    simp only [put, word, Nat.min_eq_left short]
    exact toLittle_ofLittle bytes

/-- Numbers that agree on the bytes there are have the same bytes. -/
theorem put_byte (e : Endian) (b : UInt8) : e.put 1 b.toNat = [b] := by
  have back := @put_number e [b] (by simp)
  rwa [number_singleton] at back

theorem put_congr (e : Endian) {count : Nat} {v w : Int} (short : count ≤ 4)
    (same : v % twoPow (8 * count) = w % twoPow (8 * count)) : e.put count v = e.put count w := by
  have left := @put_number e (e.put count v) (by simp)
  have right := @put_number e (e.put count w) (by simp)
  rw [← left, ← right, number_put e v short, number_put e w short, same, length_put, length_put]

end Endian

/-! ### Two's complement -/

theorem fitsSigned_iff {v : Int} {bits : Nat} :
    fitsSigned v bits = true ↔ -(twoPow (bits - 1) : Int) ≤ v ∧ v < twoPow (bits - 1) := by
  simp [fitsSigned]

theorem fitsSigned_signExtend (n : Nat) {bits : Nat} (positive : 0 < bits) :
    fitsSigned (signExtend n bits) bits = true := by
  have half : twoPow bits = 2 * twoPow (bits - 1) := by
    rw [← twoPow_succ]
    congr 1
    omega
  have width : 0 < twoPow bits := twoPow_pos bits
  have lower := Int.le_bmod (x := (n : Int)) width
  have upper := Int.bmod_lt (x := (n : Int)) width
  rw [fitsSigned_iff, signExtend]
  omega

theorem signExtend_emod (n bits : Nat) :
    signExtend n bits % twoPow bits = (n : Int) % twoPow bits := by
  simp [signExtend]

/-- A number that fits is what its bits read as. -/
theorem signExtend_of_fitsSigned {v : Int} {n bits : Nat} (positive : 0 < bits)
    (fits : fitsSigned v bits = true) (same : (n : Int) % twoPow bits = v % twoPow bits) :
    signExtend n bits = v := by
  have half : twoPow bits = 2 * twoPow (bits - 1) := by
    rw [← twoPow_succ]
    congr 1
    omega
  have equal : Int.bmod n (twoPow bits) = Int.bmod v (twoPow bits) := by
    rw [← Int.emod_bmod, same, Int.emod_bmod]
  rw [fitsSigned_iff] at fits
  rw [signExtend, equal]
  apply Int.bmod_eq_of_le <;> omega

theorem fitsUnsigned_iff {v : Int} {bits : Nat} (small : bits < 63) :
    fitsUnsigned v bits = true ↔ 0 ≤ v ∧ v < twoPow bits := by
  simp [fitsUnsigned, small]

theorem Cell.bytes_pos (c : Cell) : 0 < c.bytes := by
  cases c <;> decide

end CrossAsm

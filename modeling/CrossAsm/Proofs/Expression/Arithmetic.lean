import CrossAsm.Value.Operator
import Mathlib

/-! What signs and operators do, as arithmetic on integers: the results of 64-bit words read as signed
numbers, with a right shift that sees 32 bits and shift counts modulo 64. -/

namespace CrossAsm

/-- The signed number that a 64-bit word holds of an integer. -/
def wrap (i : Int) : Int := i.bmod (2 ^ 64)

theorem ofInt_toInt (x : Int64) : BitVec.ofInt 64 x.toInt = x.toBitVec := by
  rw [← Int64.toInt_toBitVec, BitVec.ofInt_toInt]

/-! ### Signs -/

/-- The signs that may stand in front of an operand. -/
inductive Sign where
  | minus
  | plus
  | complement
  | negation
deriving DecidableEq, Repr

namespace Sign

def char : Sign → Char
  | minus => '-'
  | plus => '+'
  | complement => '~'
  | negation => '!'

def result : Sign → Int → Int
  | minus, a => wrap (-a)
  | plus, a => a
  | complement, a => -a - 1
  | negation, a => if a = 0 then 1 else 0

theorem exists_sign? (sign : Sign) :
    ∃ act, sign? sign.char = some act ∧ ∀ x, (act x).toInt = sign.result x.toInt := by
  cases sign with
  | minus => exact ⟨_, rfl, Int64.toInt_neg⟩
  | plus => exact ⟨_, rfl, fun _ => rfl⟩
  | complement =>
    refine ⟨_, rfl, fun x => ?_⟩
    have low := x.le_toInt
    have high := x.toInt_lt
    rw [Int64.toInt_not, result]
    apply Int.bmod_eq_of_le <;> omega
  | negation =>
    refine ⟨_, rfl, fun x => ?_⟩
    have zero : x = 0 ↔ x.toInt = 0 := by rw [← Int64.toInt_inj, Int64.toInt_zero]
    simp only [result, ← zero]
    split <;> rfl

end Sign

/-! ### Operators -/

namespace Operator

def text : Operator → List Char
  | or => ['|']
  | xor => ['^']
  | and => ['&']
  | shiftLeft => ['<', '<']
  | shiftRight => ['>', '>']
  | add => ['+']
  | sub => ['-']
  | mul => ['*']
  | div => ['/']
  | rem => ['%']

/-- The result of an operator, unless it divides by zero. -/
def result : Operator → Int → Int → Option Int
  | or, a, b => some (BitVec.ofInt 64 a ||| BitVec.ofInt 64 b).toInt
  | xor, a, b => some (BitVec.ofInt 64 a ^^^ BitVec.ofInt 64 b).toInt
  | and, a, b => some (BitVec.ofInt 64 a &&& BitVec.ofInt 64 b).toInt
  | shiftLeft, a, b => some (wrap (a * 2 ^ (b % 64).toNat))
  | shiftRight, a, b => some (a % 2 ^ 32 / 2 ^ (b % 64).toNat)
  | add, a, b => some (wrap (a + b))
  | sub, a, b => some (wrap (a - b))
  | mul, a, b => some (wrap (a * b))
  | div, a, b => if b = 0 then none else some (wrap (a.tdiv b))
  | rem, a, b => if b = 0 then none else some (a.tmod b)

/-- A shift count is the remainder by 64, and so never negative. -/
theorem toNat_count (y : Int64) : (y.toBitVec.smod 64).toNat = (y.toInt % 64).toNat := by
  have signed : (y.toBitVec.smod 64).toInt = y.toInt % 64 := by
    rw [BitVec.toInt_smod, Int64.toInt_toBitVec, Int.fmod_eq_emod_of_nonneg _ (by decide)]
    rfl
  have low : 0 ≤ y.toInt % 64 := Int.emod_nonneg _ (by decide)
  have bound := (y.toBitVec.smod 64).isLt
  rw [BitVec.toInt_eq_toNat_cond] at signed
  split at signed <;> omega

theorem toInt_shiftLeft (x y : Int64) : (x <<< y).toInt = wrap (x.toInt * 2 ^ (y.toInt % 64).toNat) := by
  rw [← Int64.toInt_toBitVec, Int64.toBitVec_shiftLeft, BitVec.shiftLeft_eq', toNat_count,
    BitVec.toInt_shiftLeft, Nat.shiftLeft_eq, wrap, ← Int64.toInt_toBitVec x,
    BitVec.toInt_eq_toNat_bmod x.toBitVec, Int.bmod_mul_bmod]
  norm_cast

theorem toInt_shiftRight (x y : Int64) :
    ((x &&& 0xFFFFFFFF) >>> y).toInt = x.toInt % 2 ^ 32 / 2 ^ (y.toInt % 64).toNat := by
  have word : (x &&& 0xFFFFFFFF).toBitVec.toNat = x.toBitVec.toNat % 2 ^ 32 :=
    Nat.and_two_pow_sub_one_eq_mod x.toBitVec.toNat 32
  have low : (x &&& 0xFFFFFFFF).toBitVec.toInt = x.toInt % 2 ^ 32 := by
    rw [BitVec.toInt_eq_toNat_of_lt (by omega), word, ← Int64.toInt_toBitVec,
      BitVec.toInt_eq_toNat_cond]
    split <;> omega
  rw [← Int64.toInt_toBitVec, Int64.toBitVec_shiftRight, BitVec.sshiftRight_eq', toNat_count,
    BitVec.toInt_sshiftRight, low, Int.shiftRight_eq_div_pow]
  norm_cast

theorem map_compute (op : Operator) (x y : Int64) :
    (op.compute x y).map Int64.toInt = op.result x.toInt y.toInt := by
  have zero : y = 0 ↔ y.toInt = 0 := by rw [← Int64.toInt_inj, Int64.toInt_zero]
  cases op with
  | or => simp only [compute, result, Option.map_some, ofInt_toInt]; rfl
  | xor => simp only [compute, result, Option.map_some, ofInt_toInt]; rfl
  | and => simp only [compute, result, Option.map_some, ofInt_toInt]; rfl
  | shiftLeft => simp only [compute, result, Option.map_some, toInt_shiftLeft]
  | shiftRight => simp only [compute, result, Option.map_some, toInt_shiftRight]
  | add => simp only [compute, result, Option.map_some, Int64.toInt_add, wrap]
  | sub => simp only [compute, result, Option.map_some, Int64.toInt_sub, wrap]
  | mul => simp only [compute, result, Option.map_some, Int64.toInt_mul, wrap]
  | div =>
    simp only [compute, result, zero]
    split
    · rfl
    · rw [Option.map_some, Int64.toInt_div, wrap]
  | rem =>
    simp only [compute, result, zero]
    split
    · rfl
    · rw [Option.map_some, Int64.toInt_mod]

end Operator

end CrossAsm

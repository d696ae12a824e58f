/-! Byte orders, addressable cells, and which numbers fit a field of some bits. -/

namespace CrossAsm

/-- Two to the power `n`, the number of values that `n` bits have. -/
def twoPow (n : Nat) : Nat := 1 <<< n

inductive Endian where
  | big
  | little
deriving DecidableEq, Repr

namespace Endian

/-- The number whose bytes these are, least significant first. -/
def ofLittle : List UInt8 → Nat
  | [] => 0
  | b :: rest => b.toNat + 256 * ofLittle rest

/-- The low `count` bytes of a number, least significant first. -/
def toLittle : Nat → Nat → List UInt8
  | 0, _ => []
  | count + 1, n => UInt8.ofNat n :: toLittle count (n / 256)

def number : Endian → List UInt8 → Nat
  | little, bytes => ofLittle bytes
  | big, bytes => ofLittle bytes.reverse

def bytes : Endian → Nat → Nat → List UInt8
  | little, count, n => toLittle count n
  | big, count, n => (toLittle count n).reverse

/-- The low `count` bytes of a 32-bit word; there are no more than four. -/
def put (e : Endian) (count : Nat) (value : Int) : List UInt8 :=
  e.bytes (min count 4) (value % 0x100000000).toNat

end Endian

/-- What one address names: a byte, or a word of two. -/
inductive Cell where
  | byte
  | word
deriving DecidableEq, Repr

def Cell.bytes : Cell → Nat
  | byte => 1
  | word => 2

/-- Two's complement range of `bits` bits. -/
def fitsSigned (v : Int) (bits : Nat) : Bool :=
  -(twoPow (bits - 1) : Int) ≤ v ∧ v < twoPow (bits - 1)

/-- Unsigned range of `bits` bits. The bound is itself a signed 64-bit number, so from 63 bits
on nothing fits. -/
def fitsUnsigned (v : Int) (bits : Nat) : Bool :=
  bits < 63 ∧ 0 ≤ v ∧ v < twoPow bits

/-- Reads the low `bits` bits as a two's complement number. -/
def signExtend (n bits : Nat) : Int := Int.bmod n (twoPow bits)

end CrossAsm

import CrossAsm.Bytes

/-! Displacements of variable length. A ladder is a list of rungs from short to long; the top
bits of the first byte tell which rung was taken. -/

namespace CrossAsm

/-- A size asked for in the source text. -/
inductive Force where
  | short
  | long
deriving DecidableEq, Repr

structure Rung where
  bytes : Nat
  tag : Nat
  tagBits : Nat
  min : Int
  max : Int
deriving DecidableEq, Repr

namespace Rung

/-- Bits left for the number. -/
def bits (r : Rung) : Nat := 8 * r.bytes - r.tagBits

def holds (r : Rung) (v : Int) : Bool := r.min ≤ v ∧ v ≤ r.max

/-- The tag above the low bits of the number, most significant byte first. -/
def encode (r : Rung) (v : Int) : List UInt8 :=
  Endian.big.put r.bytes (r.tag * twoPow r.bits + v % twoPow r.bits)

/-- Does a displacement with this first byte use the rung? -/
def tags (r : Rung) (first : UInt8) : Bool := first.toNat / twoPow (8 - r.tagBits) = r.tag

/-- The number behind the tag in the bytes of a displacement, of which the low 32 bits count. -/
def decode (r : Rung) (bytes : List UInt8) : Int :=
  signExtend (Endian.big.number bytes % twoPow (Nat.min r.bits 32)) r.bits

end Rung

namespace Ladder

/-- The rung taken for a value: the one asked for, the last for a value not known yet, else the
first that holds it. A value that none holds is left to the last. -/
def rung? (ladder : List Rung) (v : Int) (force : Option Force) (undefined : Bool) :
    Option Rung :=
  match force, undefined with
  | some .short, _ => ladder.head?
  | some .long, _ => ladder.getLast?
  | none, true => ladder.getLast?
  | none, false => (ladder.find? (·.holds v)).or ladder.getLast?

/-- Bytes taken for a value; a ladder without rungs takes none. -/
def size (ladder : List Rung) (v : Int) (force : Option Force) (undefined : Bool) : Nat :=
  match rung? ladder v force undefined with
  | some rung => rung.bytes
  | none => 0

end Ladder

end CrossAsm

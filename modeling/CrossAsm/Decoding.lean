import CrossAsm.Config
import CrossAsm.Fault

/-! An instruction while its operands are read. Reads past the end of memory record a fault and
give zeros, so that reading always completes. -/

namespace CrossAsm

structure Decoding where
  config : Config
  address : UInt32
  opcode : BitVec 32
  /-- Bytes found between the lead bytes and the opcode. -/
  gapBytes : List UInt8
  /-- Bytes read so far. -/
  bytes : List UInt8
  /-- Bytes ahead. -/
  rest : List UInt8
  fault : Option Fault := none
deriving DecidableEq

namespace Decoding

/-- Records a fault here unless there is one already. -/
def fail (d : Decoding) (cause : Cause) : Decoding :=
  { d with fault := d.fault.or (some (cause.located d.bytes.length)) }

def byte (d : Decoding) : UInt8 × Decoding :=
  match d.rest with
  | b :: rest => (b, { d with bytes := d.bytes ++ [b], rest })
  | [] => (0, d.fail .noMemory)

def take : Nat → Decoding → List UInt8 × Decoding
  | 0, d => ([], d)
  | n + 1, d =>
    let (b, d) := d.byte
    let (bs, d) := take n d
    (b :: bs, d)

/-- Reads a number of `n` bytes in a given byte order and keeps its low 32 bits. -/
def readIn (d : Decoding) (e : Endian) (n : Nat) : Nat × Decoding :=
  let (bs, d) := take n d
  (e.number bs % 0x100000000, d)

/-- Reads a number of `n` bytes in the target's byte order. -/
def read (d : Decoding) (n : Nat) : Nat × Decoding := d.readIn d.config.endian n

/-- The next cell, without moving. -/
def peekCell? (d : Decoding) : Option Nat :=
  let n := d.config.cell.bytes
  if n ≤ d.rest.length then some (d.config.endian.number (d.rest.take n)) else none

/-- Reads a displacement, from the gap if that holds one. -/
def readDisp (d : Decoding) (n : Nat) : Nat × Decoding :=
  if n ≤ d.gapBytes.length then
    (d.config.endian.number (d.gapBytes.take n) % 0x100000000,
      { d with gapBytes := d.gapBytes.drop n })
  else d.read n

/-- Reads a displacement on the target's ladder. -/
def readLadder (d : Decoding) : Int × Decoding :=
  match d.rest with
  | [] => (0, d.fail .noMemory)
  | first :: _ =>
    let d := d.byte.2
    match d.config.ladder.find? (·.tags first) with
    | none => (0, d.fail .illegalConstant)
    | some rung =>
      let (more, d) := take (rung.bytes - 1) d
      let v := rung.decode (first :: more)
      (v, if v < rung.min then d.fail .illegalConstant else d)

/-- Cells read so far. -/
def consumed (d : Decoding) : Nat := d.bytes.length / d.config.cell.bytes

/-- Where a displacement read now is measured from. -/
def base (d : Decoding) : Int :=
  match d.config.origin with
  | .start => d.address.toNat
  | .finish => d.address.toNat + (d.consumed : Nat)

/-- The address a displacement read now leads to. -/
def target (d : Decoding) (disp : Int) : Int := d.config.wrap (d.base + disp)

end Decoding

end CrossAsm

import CrossAsm.Memory
import CrossAsm.Text.Radix

/-! Loaded memory: segments, each a run of cells from a base address on. -/

namespace CrossAsm

structure Segment where
  name : String
  base : UInt32
  bytes : List UInt8
  cell : Cell
deriving DecidableEq

namespace Segment

def memory (s : Segment) : Memory := ⟨s.base, s.bytes, s.cell⟩

/-- The number of whole cells. -/
def cells (s : Segment) : Nat := s.bytes.length / s.cell.bytes

/-- The first address behind the segment, in the 32-bit address space. -/
def stop (s : Segment) : UInt32 := s.base + UInt32.ofNat s.cells

def contains (s : Segment) (address : UInt32) : Bool := s.base ≤ address && address < s.stop

end Segment

structure Image where
  segments : List Segment
deriving DecidableEq

/-- Why a file cannot be loaded. -/
inductive LoadError where
  | skipTooLarge
  | lengthTooLarge
  | brokenCell (bytes cellBytes : Nat)
deriving DecidableEq, Repr

def LoadError.message : LoadError → String
  | skipTooLarge => "--skip exceeds file size"
  | lengthTooLarge => "--len exceeds remaining file size after skip"
  | brokenCell bytes cellBytes =>
    Text.decimal bytes ++ " bytes is not a whole number of " ++ Text.decimal cellBytes ++
      "-byte units"

namespace Image

/-- The first segment that holds an address. -/
def segmentAt? (i : Image) (address : UInt32) : Option Segment :=
  i.segments.find? (·.contains address)

def isMapped (i : Image) (address : UInt32) : Bool := (i.segmentAt? address).isSome

/-- Loads a file as one segment: what is left of it behind `skip` bytes, or the first `length`
bytes of that. -/
def load (name : String) (file : List UInt8) (base : UInt32) (skip : Nat) (length : Option Nat)
    (cell : Cell) : Except LoadError Image :=
  let payload := file.drop skip
  let length := length.getD payload.length
  if file.length < skip then .error .skipTooLarge
  else if payload.length < length then .error .lengthTooLarge
  else if length % cell.bytes ≠ 0 then .error (.brokenCell length cell.bytes)
  else .ok ⟨[⟨name, base, payload.take length, cell⟩]⟩

end Image

end CrossAsm

import CrossAsm.Bytes

/-! Target memory loaded at a base address, and a reader that moves through it. -/

namespace CrossAsm

structure Memory where
  base : UInt32
  bytes : List UInt8
  cell : Cell := .byte
deriving DecidableEq

/-- A place in a memory: how many bytes are behind it and which are ahead. -/
structure Reader where
  base : UInt32
  cell : Cell
  offset : Nat
  rest : List UInt8
deriving DecidableEq

namespace Memory

/-- The reader at a byte offset, or at the end if the memory is shorter. -/
def seek (m : Memory) (offset : Nat) : Reader :=
  ⟨m.base, m.cell, min offset m.bytes.length, m.bytes.drop offset⟩

def reader (m : Memory) : Reader := m.seek 0

/-- The reader at an address, or at the end if the address is not in the memory. -/
def goto (m : Memory) (address : UInt32) : Reader :=
  m.seek ((address - m.base).toNat * m.cell.bytes)

end Memory

namespace Reader

/-- The address of the cell that holds the next byte. -/
def address (r : Reader) : UInt32 := r.base + UInt32.ofNat (r.offset / r.cell.bytes)

def hasNext (r : Reader) : Bool := !r.rest.isEmpty

/-- Moves over the next `n` bytes, or to the end if there are fewer. -/
def skip (r : Reader) (n : Nat) : Reader :=
  { r with offset := r.offset + min n r.rest.length, rest := r.rest.drop n }

/-- Reads a number of `n` bytes. If there are fewer, they are passed over all the same. -/
def number? (r : Reader) (e : Endian) (n : Nat) : Option Nat × Reader :=
  (if n ≤ r.rest.length then some (e.number (r.rest.take n)) else none, r.skip n)

end Reader

end CrossAsm

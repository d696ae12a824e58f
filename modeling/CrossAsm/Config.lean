import CrossAsm.Dialect
import CrossAsm.Ladder

/-! What holds for every instruction of a target: number syntax, byte order, address space and
how displacements are measured. -/

namespace CrossAsm

/-- Where a displacement relative to the instruction is measured from. -/
inductive Origin where
  /-- The first byte, lead bytes included. -/
  | start
  /-- The cell after the last byte. -/
  | finish
deriving DecidableEq, Repr

structure Config where
  dialect : Dialect := .intel
  endian : Endian := .little
  cell : Cell := .byte
  addressBits : Nat := 16
  origin : Origin := .finish
  /-- Empty for a target without displacements of variable length. -/
  ladder : List Rung := []
deriving DecidableEq, Repr

/-- Wraps a number into the target's address space, of 32 bits at most. -/
def Config.wrap (c : Config) (v : Int) : Int := v % twoPow (min c.addressBits 32)

/-- Hexadecimal digits of an address. -/
def Config.addressDigits (c : Config) : Nat := (c.addressBits + 3) / 4

end CrossAsm

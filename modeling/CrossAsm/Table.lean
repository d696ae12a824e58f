import CrossAsm.Operand

/-! Instruction tables: pages of entries, each with an opcode and the slots its operands go to. -/

namespace CrossAsm

/-- Width of a field after the opcode. -/
inductive Width where
  | byte
  | word
  | long
  /-- That of the entry's size class. -/
  | sized
deriving DecidableEq, Repr

/-- Bytes of a field, if the size class has them. -/
def Width.bytes? : Width → Size → Option Nat
  | byte, _ => some 1
  | word, _ => some 2
  | long, _ => some 4
  | sized, .byte => some 1
  | sized, .word => some 2
  | sized, .long => some 4
  | sized, .unsized => none
  | sized, .quad => none

/-- How an operand is laid down in the instruction. -/
inductive Shape where
  /-- Nowhere; the entry itself names the operand. -/
  | implied
  /-- A register number in the opcode. -/
  | register
  /-- A short constant in the opcode. -/
  | embedded (signed : Bool)
  /-- A bit number in the opcode. -/
  | bit
  | immediate (width : Width)
  | absolute (width : Width)
  /-- A target relative to the instruction, in a field of fixed width. -/
  | relative (width : Width)
  /-- A register number in the opcode and a displacement after it. -/
  | indexed (disp : Width) (signed : Bool)
  /-- A displacement on the target's ladder. -/
  | ladder (relative : Bool)
  /-- By rules of the target's own. -/
  | custom
deriving DecidableEq, Repr

/-- One operand position: the category of modes it takes, and its field in the opcode. -/
structure Slot (Mode : Type) where
  mode : Mode
  pos : Nat
  width : Nat
deriving DecidableEq, Repr

namespace Slot

variable {Mode : Type}

/-- A slot without a field in the opcode. -/
def bare (mode : Mode) : Slot Mode := ⟨mode, 0, 0⟩

/-- A slot with `width` opcode bits from bit `pos` on. -/
def field (mode : Mode) (pos width : Nat) : Slot Mode := ⟨mode, pos, width⟩

/-- The opcode bits of the slot. -/
def mask (s : Slot Mode) : BitVec 32 := BitVec.ofNat 32 ((twoPow s.width - 1) <<< s.pos)

/-- The slot's field in an opcode. -/
def read (s : Slot Mode) (opcode : BitVec 32) : Nat := ((opcode &&& s.mask) >>> s.pos).toNat

end Slot

structure Entry (Mode : Type) where
  name : String
  opcode : BitVec 32
  slots : List (Slot Mode)
  size : Size := .unsized
  /-- A condition on the cell after the opcode, where only that tells entries apart. -/
  post : Option (Nat → Bool) := none

namespace Entry

variable {Mode : Type}

/-- An entry with operands of no particular size. -/
def of (name : String) (opcode : BitVec 32) (slots : List (Slot Mode)) : Entry Mode :=
  { name, opcode, slots }

/-- The opcode bits that carry operands. -/
def mask (e : Entry Mode) : BitVec 32 := e.slots.foldl (fun m s => m ||| s.mask) 0

def covers (e : Entry Mode) (opcode : BitVec 32) : Bool := opcode &&& ~~~e.mask == e.opcode

end Entry

/-- Entries with the same bytes in front of the opcode and the same opcode length. -/
structure Page (Mode : Type) where
  lead : List UInt8 := []
  /-- Cells of displacement between the lead bytes and the opcode. -/
  gap : Nat := 0
  opcodeCells : Nat := 1
  /-- The variants of the target that have the page. -/
  features : BitVec 32 := BitVec.allOnes 32
  entries : List (Entry Mode)

end CrossAsm

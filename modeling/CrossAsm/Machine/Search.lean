import CrossAsm.Machine.Basic
import CrossAsm.Memory

/-! Finding an entry by name and operands, or by the bytes of an instruction. In both directions
the first match in table order wins. -/

namespace CrossAsm.Machine

variable {Mode Reg : Type}

/-- Does every slot take the operand at its place? -/
def admits (m : Machine Mode Reg) : List (Slot Mode) → List (Operand Mode Reg) → Bool
  | [], [] => true
  | slot :: slots, op :: ops => m.accepts slot.mode op.mode && m.admits slots ops
  | _, _ => false

/-- The entry for a name and operands. A name without an entry in this variant is an unknown
instruction. -/
def findByName (m : Machine Mode Reg) (name : String) (ops : List (Operand Mode Reg)) :
    Except Cause (Page Mode × Entry Mode) :=
  let candidates := (m.candidates name).filter fun hit => m.enabled hit.1
  match candidates.find? fun hit => m.admits hit.2.slots ops with
  | some hit => .ok hit
  | none => .error (if candidates.isEmpty then .unknownInstruction else .operandNotAllowed)

/-- An entry found in memory. -/
structure Found (Mode : Type) where
  page : Page Mode
  entry : Entry Mode
  opcode : BitVec 32
  /-- Lead bytes, gap and opcode. -/
  bytes : List UInt8
  gapBytes : List UInt8

/-- Bytes of a page's instructions up to the end of the opcode. -/
def headLength (m : Machine Mode Reg) (page : Page Mode) : Nat :=
  page.lead.length + (page.gap + page.opcodeCells) * m.config.cell.bytes

/-- Does the cell after the opcode meet the entry's condition? Nothing meets it at the end of
memory. -/
def postHolds (m : Machine Mode Reg) (entry : Entry Mode) (rest : List UInt8) : Bool :=
  match entry.post with
  | none => true
  | some post =>
    let n := m.config.cell.bytes
    n ≤ rest.length && post (m.config.endian.number (rest.take n))

/-- The first entry of a page that matches the memory ahead. -/
def findInPage (m : Machine Mode Reg) (page : Page Mode) (rest : List UInt8) :
    Option (Found Mode) :=
  let bytes := rest.take (m.headLength page)
  let gapBytes := (bytes.drop page.lead.length).take (page.gap * m.config.cell.bytes)
  let opcode := BitVec.ofNat 32 (m.config.endian.number
    (bytes.drop (page.lead.length + page.gap * m.config.cell.bytes)))
  if page.lead.isPrefixOf rest && m.headLength page ≤ rest.length then
    (page.entries.find? fun entry =>
        entry.covers opcode && m.postHolds entry (rest.drop (m.headLength page))).map
      fun entry => { page, entry, opcode, bytes, gapBytes }
  else none

/-- The first entry of this variant that matches the memory ahead. -/
def findByOpcode (m : Machine Mode Reg) (rest : List UInt8) : Option (Found Mode) :=
  (m.pages.filter m.enabled).findSome? fun page => m.findInPage page rest

/-- Looks for an instruction at the reader and moves behind its opcode. Where there is none, the
reader stays. -/
def findAt (m : Machine Mode Reg) (r : Reader) : Except Cause (Found Mode) × Reader :=
  match m.findByOpcode r.rest with
  | some found => (.ok found, r.skip found.bytes.length)
  | none => (.error .unknownInstruction, r)

end CrossAsm.Machine

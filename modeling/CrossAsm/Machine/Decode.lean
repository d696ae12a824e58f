import CrossAsm.Machine.Search
import CrossAsm.Memory

/-! Decoding one instruction, and decoding memory from a place to its end. -/

namespace CrossAsm

/-- A decoded instruction, or the cell that could not be decoded. -/
structure Decoded where
  address : UInt32
  bytes : List UInt8
  mnemonic : String
  operands : List String
  fault : Option Fault
deriving DecidableEq, Repr

/-- The instruction as a line of source. -/
def Decoded.text (d : Decoded) : String :=
  if d.operands.isEmpty then d.mnemonic else d.mnemonic ++ " " ++ ",".intercalate d.operands

namespace Machine

variable {Mode Reg : Type}

/-- Reads an operand as the shape of its slot asks. -/
def decodeOperand (m : Machine Mode Reg) (entry : Entry Mode) (slot : Slot Mode)
    (index : Option UInt8) (d : Decoding) : Option (Operand Mode Reg) × Decoding :=
  let op : Operand Mode Reg := { mode := slot.mode, column := d.bytes.length }
  let field := slot.read d.opcode
  match m.shape slot.mode with
  | .implied => (some op, d)
  | .register =>
    match m.registerOperand slot.mode field with
    | some op => (some op, d)
    | none => (none, d.fail .unknownOperand)
  | .embedded signed =>
    (some { op with value := if signed then signExtend field slot.width else field }, d)
  | .bit => (some { op with value := field }, d)
  | .immediate width | .absolute width =>
    match width.bytes? entry.size with
    | none => (none, d.fail .illegalSize)
    | some n =>
      let (v, d) := d.read n
      (some { op with value := v }, d)
  | .relative width =>
    match width.bytes? entry.size with
    | none => (none, d)
    | some n =>
      let (v, d) := d.read n
      (some { op with value := d.target (signExtend v (8 * n)) }, d)
  | .indexed disp signed =>
    let (reg, d) :=
      if 0 < slot.width then
        match m.registerOperand slot.mode field with
        | some r => (r.reg, d)
        | none => (none, d.fail .unknownOperand)
      else (none, d)
    match disp.bytes? entry.size with
    | none => (none, d)
    | some n =>
      let (v, d) := d.readDisp n
      (some { op with reg, value := if signed then signExtend v (8 * n) else v }, d)
  | .ladder relative =>
    let (v, d) := d.readLadder
    (some { op with value := if relative then d.target v else v }, d)
  | .custom => m.decodeCustom entry slot index d

/-- Reads the index bytes, which stand in front of all operands. -/
def readIndexes (m : Machine Mode Reg) :
    List (Slot Mode) → Decoding → List (Slot Mode × Option UInt8) × Decoding
  | [], d => ([], d)
  | slot :: slots, d =>
    if m.hasIndexByte slot.mode (slot.read d.opcode) then
      let (b, d) := d.byte
      let (more, d) := m.readIndexes slots d
      ((slot, some b) :: more, d)
    else
      let (more, d) := m.readIndexes slots d
      ((slot, none) :: more, d)

/-- Reads the operands one after the other, leaving out those that cannot be read. -/
def decodeSlots (m : Machine Mode Reg) (entry : Entry Mode) :
    List (Slot Mode × Option UInt8) → Decoding → List (Operand Mode Reg) × Decoding
  | [], d => ([], d)
  | (slot, index) :: slots, d =>
    let (op, d) := m.decodeOperand entry slot index d
    let (ops, d) := m.decodeSlots entry slots d
    (op.toList ++ ops, d)

/-- The operands of an entry whose opcode has been read. -/
def decodeOperands (m : Machine Mode Reg) (entry : Entry Mode) (d : Decoding) :
    List (Operand Mode Reg) × Decoding :=
  let (slots, d) := m.readIndexes entry.slots d
  let (ops, d) := m.decodeSlots entry slots d
  (m.tidy ops, d)

/-- The state after an entry was found at the head of `rest`. -/
def decoding (m : Machine Mode Reg) (found : Found Mode) (address : UInt32) (rest : List UInt8) :
    Decoding where
  config := m.config
  address
  opcode := found.opcode
  gapBytes := found.gapBytes
  bytes := found.bytes
  rest := rest.drop found.bytes.length

/-- Decodes the instruction at the reader. An unknown opcode takes up one cell. -/
def decode (m : Machine Mode Reg) (symbols : Symbols) (style : Style) (r : Reader) :
    Decoded × Reader :=
  match m.findAt r with
  | (.error cause, _) =>
    let n := m.config.cell.bytes
    let whole := n ≤ r.rest.length
    let cause := if whole then cause else Cause.noMemory
    ({ address := r.address
       bytes := if whole then r.rest.take n else []
       mnemonic := ""
       operands := []
       fault := some (cause.located 0) }, r.skip n)
  | (.ok found, _) =>
    let (ops, d) := m.decodeOperands found.entry (m.decoding found r.address r.rest)
    let rendering : Rendering := ⟨m.config, symbols, style, r.address⟩
    ({ address := r.address
       bytes := d.bytes
       mnemonic := rendering.case found.entry.name
       operands := ops.map (m.formatOperand rendering)
       fault := d.fault }, r.skip d.bytes.length)

/-- Decodes up to `fuel` instructions one behind the other. -/
def sweep (m : Machine Mode Reg) (symbols : Symbols) (style : Style) :
    Nat → Reader → List Decoded × Reader
  | 0, r => ([], r)
  | fuel + 1, r =>
    if r.hasNext then
      let (item, r) := m.decode symbols style r
      let (items, r) := m.sweep symbols style fuel r
      (item :: items, r)
    else ([], r)

/-- Decodes to the end of memory. Every instruction takes up a byte at least. -/
def decodeAll (m : Machine Mode Reg) (symbols : Symbols) (style : Style) (r : Reader) :
    List Decoded × Reader :=
  m.sweep symbols style r.rest.length r

end Machine

end CrossAsm

import CrossAsm.Machine.Search

/-! Assembling one line. Once the entry is known the instruction has its full length even when
an operand does not fit: a zero stands in its place. -/

namespace CrossAsm

structure Assembled where
  address : UInt32
  bytes : List UInt8
  fault : Option Fault
deriving DecidableEq, Repr

namespace Machine

variable {Mode Reg : Type}

/-- Puts an operand's register into the opcode. -/
def encodeRegister (m : Machine Mode Reg) (slot : Slot Mode) (op : Operand Mode Reg) (d : Draft) :
    Draft × Option Cause :=
  match m.registerField slot.mode op with
  | .ok field => (d.embed (BitVec.ofNat 32 field) slot.pos slot.width, none)
  | .error cause => (d, some cause)

/-- Puts an operand's value into the opcode, or `cause` if it does not fit. -/
def encodeEmbedded (slot : Slot Mode) (op : Operand Mode Reg) (fits : Bool) (cause : Cause)
    (d : Draft) : Draft × Option Cause :=
  if op.undefined || fits then (d.embed (BitVec.ofInt 32 op.value) slot.pos slot.width, none)
  else (d, some cause)

/-- Adds an operand's value behind the opcode, or a zero and a fault if it does not fit. -/
def encodeNumber (stage : Stage) (op : Operand Mode Reg) (bytes : Nat) (fits : Bool) (d : Draft) :
    Draft × Option Cause :=
  if op.undefined || fits then (d.emit stage op.value bytes op.column, none)
  else (d.emit stage 0 bytes op.column, some .overflowRange)

/-- Lays an operand down as the shape of its slot asks. -/
def encodeOperand (m : Machine Mode Reg) (entry : Entry Mode) (slot : Slot Mode)
    (op : Operand Mode Reg) (d : Draft) : Draft × Option Cause :=
  match m.shape slot.mode with
  | .implied => (d, none)
  | .register => m.encodeRegister slot op d
  | .embedded signed =>
    let fits := if signed then fitsSigned op.value slot.width else fitsUnsigned op.value slot.width
    encodeEmbedded slot op fits .overflowRange d
  | .bit => encodeEmbedded slot op (fitsUnsigned op.value slot.width) .illegalBitNumber d
  | .immediate width =>
    match width.bytes? entry.size with
    | none => (d, some .illegalSize)
    | some n =>
      let fits := fitsSigned op.value (8 * n) || fitsUnsigned op.value (8 * n)
      encodeNumber .payload op n fits d
  | .absolute width =>
    match width.bytes? entry.size with
    | none => (d, some .illegalSize)
    | some n =>
      -- An address not known yet is laid down as 0.
      let known := { op with value := if op.undefined then 0 else op.value }
      encodeNumber .payload known n (fitsUnsigned op.value (min (8 * n) d.config.addressBits)) d
  | .relative width =>
    match width.bytes? entry.size with
    | none => (d, some .illegalSize)
    | some n => (d.extend .payload (.relative op.value n op.undefined) op.column, none)
  | .indexed disp signed =>
    let (d, rejected) := if 0 < slot.width then m.encodeRegister slot op d else (d, none)
    match rejected, disp.bytes? entry.size with
    | some cause, _ => (d, some cause)
    | none, none => (d, some .illegalSize)
    | none, some n =>
      let fits := if signed then fitsSigned op.value (8 * n) else fitsUnsigned op.value (8 * n)
      encodeNumber d.dispStage op n fits d
  | .ladder relative =>
    (d.extend .payload (.ladder op.value relative op.force op.undefined) op.column, none)
  | .custom => m.encodeCustom entry slot op d

/-- Lays the operands down one after the other. The first fault counts, and the operands behind
it are laid down all the same so that the length holds. -/
def encodeOperands (m : Machine Mode Reg) (entry : Entry Mode) :
    List (Slot Mode) → List (Operand Mode Reg) → Draft → Draft × Option Fault
  | slot :: slots, op :: ops, d =>
    let (d, cause) := m.encodeOperand entry slot op d
    let (d, later) := m.encodeOperands entry slots ops d
    (d, (cause.map (·.located op.column)).or later)
  | _, _, d => (d, none)

/-- The instruction of an entry before its operands are added. -/
def draft (m : Machine Mode Reg) (page : Page Mode) (entry : Entry Mode) (address : UInt32) :
    Draft where
  address
  config := m.config
  lead := page.lead
  gap := page.gap
  opcodeCells := page.opcodeCells
  opcode := entry.opcode

/-- The instruction of an entry with these operands. An operand whose value is not known yet is
reported after everything else. -/
def encode (m : Machine Mode Reg) (page : Page Mode) (entry : Entry Mode)
    (ops : List (Operand Mode Reg)) (address : UInt32) : Assembled :=
  let (d, early) := m.encodeOperands entry entry.slots ops (m.draft page entry address)
  { address
    bytes := d.bytes
    fault := (early.or d.fault?).or (ops.findSome? (·.fault)) }

/-- Operands between commas, up to the first with a hard fault. -/
def parseList (m : Machine Mode Reg) (scope : Scope) :
    Nat → Cursor → List (Operand Mode Reg) × Cursor
  | 0, c => ([], c)
  | fuel + 1, c =>
    let (op, c) := m.parseOperand scope c.skipSpaces
    if op.hardFault?.isSome then ([op], c)
    else
      let c := c.skipSpaces
      match c.eat? ',' with
      | none => ([op], c)
      | some c =>
        let (ops, c) := m.parseList scope fuel c
        (op :: ops, c)

/-- The operands behind a mnemonic. Each but the first follows a comma, so the text is long
enough a bound on their number. -/
def parseOperands (m : Machine Mode Reg) (symbols : Symbols) (address : UInt32) (c : Cursor) :
    List (Operand Mode Reg) × Cursor :=
  let c := c.skipSpaces
  if c.atEnd then ([], c)
  else m.parseList ⟨m.config.dialect, symbols, address⟩ (c.rest.length + 1) c

/-- The entry and the operands of a line, or its first fault; `none` for a line without an
instruction. -/
def parseLine (m : Machine Mode Reg) (symbols : Symbols) (line : String) (address : UInt32) :
    Except Fault (Option (Page Mode × Entry Mode × List (Operand Mode Reg))) :=
  let c := (Cursor.start line).skipSpaces
  if c.atEnd then .ok none
  else
    match c.ident? with
    | none => .error (Cause.unknownInstruction.located c.pos)
    | some (name, after) =>
      let (ops, after) := m.parseOperands symbols address after
      let place := (ops.head?.map (·.column)).getD c.pos
      match ops.findSome? (·.hardFault?) with
      | some f => .error f
      | none =>
        if !after.atEnd then .error (Cause.garbageAtEnd.located after.pos)
        else
          match m.findByName name ops with
          | .error .unknownInstruction => .error (Cause.unknownInstruction.located c.pos)
          | .error cause => .error (cause.located place)
          | .ok (page, entry) =>
            match m.check entry ops with
            | some cause => .error (cause.located place)
            | none => .ok (some (page, entry, ops))

/-- Assembles a line at an address. -/
def assemble (m : Machine Mode Reg) (symbols : Symbols) (line : String) (address : UInt32) :
    Assembled :=
  match m.parseLine symbols line address with
  | .error f => ⟨address, [], some f⟩
  | .ok none => ⟨address, [], none⟩
  | .ok (some (page, entry, ops)) => m.encode page entry ops address

end Machine

end CrossAsm

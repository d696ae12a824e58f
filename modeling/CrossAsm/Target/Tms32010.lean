import CrossAsm.Machine.Basic
import CrossAsm.Target.Tms32010.Table

/-! The TMS32010 as a machine. Memory operands are an address in the current page, or the
indirect code: the register pointer, how it steps, and which register is next. -/

namespace CrossAsm.Tms32010

def Reg.name : Reg → String
  | ar0 => "AR0"
  | ar1 => "AR1"

def config : Config := { dialect := .texas, endian := .big, cell := .word, addressBits := 12 }

def accepts (category mode : Mode) : Bool :=
  match category with
  | .mem => mode == .imm || mode == .ind
  | .ar => mode == .arReg
  | .narp | .shift | .sachShift | .port | .k1 | .k8 | .k13 | .arp | .pma => mode == .imm
  | .imm | .ind | .arReg => false

def shape : Mode → Shape
  | .mem | .narp | .sachShift => .custom
  | .ar => .register
  | .shift | .port | .k1 | .k8 | .arp => .embedded false
  | .k13 => .embedded true
  | .pma => .absolute .word
  | .imm | .ind | .arReg => .implied

/-- The digits of a word that names an auxiliary register. -/
def registerDigits? (name : String) : Option (List Char) :=
  match (Text.upper name).toList with
  | 'A' :: 'R' :: digits => if !digits.isEmpty && digits.all Char.isDigit then some digits else none
  | _ => none

/-- An auxiliary register; there are two. -/
def registerNamed (column : Nat) (digits : List Char) : Operand Mode Reg :=
  let op : Operand Mode Reg := { mode := .arReg, column }
  match digits with
  | ['0'] => { op with reg := some .ar0 }
  | ['1'] => { op with reg := some .ar1 }
  | _ => op.failed (Cause.registerNotAllowed.located column)

def parseOperand (scope : Scope) (c : Cursor) : Operand Mode Reg × Cursor :=
  match c.eat? '*' with
  | some after =>
    let op : Operand Mode Reg := { mode := .ind, column := c.pos }
    match after.eat? '+', after.eat? '-' with
    | some after, _ => ({ op with value := 1 }, after)
    | none, some after => ({ op with value := 2 }, after)
    | none, none => (op, after)
  | none =>
    match c.ident?.bind fun (name, after) => (registerDigits? name).map fun ds => (ds, after) with
    | some (digits, after) => (registerNamed c.pos digits, after)
    | none => ({ mode := .imm, column := c.pos } : Operand Mode Reg).parseValue scope c

def registerField (_ : Mode) (op : Operand Mode Reg) : Except Cause Nat :=
  match op.reg with
  | some .ar0 => .ok 0
  | some .ar1 => .ok 1
  | none => .error .registerNotAllowed

def registerOperand (_ : Mode) (field : Nat) : Option (Operand Mode Reg) :=
  some { mode := .arReg, reg := some (if field % 2 = 0 then .ar0 else .ar1), column := 0 }

/-- A next register pointer goes with indirect operands only. -/
def check (entry : Entry Mode) (ops : List (Operand Mode Reg)) : Option Cause :=
  if entry.slots.any (·.mode == .narp) && !ops.any (·.mode == .ind) then some .operandNotAllowed
  else none

/-! ### The indirect code -/

def indirect : BitVec 32 := 0x80
def keepPointer : BitVec 32 := 0x08
def increment : BitVec 32 := 0x20
def decrement : BitVec 32 := 0x10
/-- Bits of the indirect code that stay clear. -/
def reserved : BitVec 32 := 0x46

/-- The code for a step of 0, 1 or 2 that keeps the pointer. -/
def indirectCode (step : Int) : BitVec 32 :=
  indirect ||| keepPointer |||
    (if step = 1 then increment else if step = 2 then decrement else 0)

/-- The step of an indirect code. A kept pointer names no next register. -/
def step? (code : BitVec 32) : Option Int :=
  if code &&& reserved ≠ 0 ∨ (code &&& keepPointer ≠ 0 ∧ code &&& 1 ≠ 0) then none
  else if code &&& (increment ||| decrement) = 0 then some 0
  else if code &&& (increment ||| decrement) = increment then some 1
  else if code &&& (increment ||| decrement) = decrement then some 2
  else none

/-- Shifts that the high store can do. -/
def storeShift (v : Int) : Bool := v = 0 ∨ v = 1 ∨ v = 4

/-- A next register pointer takes the place of the bit that keeps the pointer. -/
def encodeCustom (_ : Entry Mode) (slot : Slot Mode) (op : Operand Mode Reg) (d : Draft) :
    Draft × Option Cause :=
  match slot.mode with
  | .narp =>
    if fitsUnsigned op.value 1 then
      (d.setOpcode ((d.opcode &&& ~~~keepPointer) ||| BitVec.ofInt 32 op.value), none)
    else (d, some .overflowRange)
  | .sachShift =>
    if storeShift op.value then
      (d.embed (BitVec.ofInt 32 op.value) slot.pos slot.width, none)
    else (d, some .illegalConstant)
  | _ =>
    if op.mode = .ind then (d.embed (indirectCode op.value) slot.pos slot.width, none)
    else if op.undefined || fitsUnsigned op.value 7 then
      (d.embed (BitVec.ofInt 32 op.value) slot.pos 7, none)
    else (d, some .overflowRange)

def decodeCustom (_ : Entry Mode) (slot : Slot Mode) (_ : Option UInt8) (d : Decoding) :
    Option (Operand Mode Reg) × Decoding :=
  let code := d.opcode &&& 0xFF
  match slot.mode with
  | .narp =>
    if code &&& indirect ≠ 0 ∧ code &&& keepPointer = 0 then
      (some { mode := .narp, value := (code &&& 1).toNat, column := 0 }, d)
    else (none, d)
  | .sachShift =>
    let field := slot.read d.opcode
    if storeShift field then (some { mode := .sachShift, value := field, column := 0 }, d)
    else (none, d.fail .illegalConstant)
  | _ =>
    if code &&& indirect = 0 then (some { mode := .imm, value := code.toNat, column := 0 }, d)
    else
      match step? code with
      | some step => (some { mode := .ind, value := step, column := 0 }, d)
      | none => (none, d.fail .unknownOperand)

/-- A zero shift is written only before a next register pointer. -/
def tidy (ops : List (Operand Mode Reg)) : List (Operand Mode Reg) :=
  if ops.any (·.mode == .narp) then ops
  else ops.filter fun op => !((op.mode == .shift || op.mode == .sachShift) && op.value == 0)

def formatOperand (r : Rendering) (op : Operand Mode Reg) : String :=
  match op.mode with
  | .ind => if op.value % 3 = 0 then "*" else if op.value % 3 = 1 then "*+" else "*-"
  | .arReg | .ar => (op.reg.map fun reg => r.case reg.name).getD ""
  | .pma => r.place (UInt32.ofInt op.value)
  | .narp | .shift | .sachShift | .port | .k1 | .arp => Text.decimalInt op.value
  | .imm | .mem | .k8 | .k13 => r.num op.value

def machine : Machine Mode Reg where
  name := "tms32010"
  config
  pages
  accepts
  shape
  parseOperand
  registerField
  registerOperand
  check
  encodeCustom
  decodeCustom
  tidy
  formatOperand

end CrossAsm.Tms32010

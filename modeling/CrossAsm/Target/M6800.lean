import CrossAsm.Machine.Basic
import CrossAsm.Target.M6800.Table

/-! The 6800 family as a machine. An address below 256 is direct unless asked otherwise; where
no direct form exists the extended one takes it. -/

namespace CrossAsm.M6800

def Reg.name : Reg → String
  | x => "X"

def config : Config := { dialect := .motorola, endian := .big }

def accepts : Mode → Mode → Bool
  | .imm8, mode | .imm16, mode => mode == .imm
  | .direct, mode | .bitClr, mode | .bitSet, mode => mode == .dir
  | .extended, mode | .rel, mode => mode == .dir || mode == .ext
  | .indexed, mode => mode == .idx
  | .imm, mode => mode == .imm
  | .dir, mode => mode == .dir
  | .ext, mode => mode == .ext
  | .idx, mode => mode == .idx

def shape : Mode → Shape
  | .imm8 => .immediate .byte
  | .imm16 => .immediate .word
  | .direct => .absolute .byte
  | .extended => .absolute .word
  | .indexed => .indexed .byte false
  | .rel => .relative .byte
  | .bitClr | .bitSet => .custom
  | .imm | .dir | .ext | .idx => .implied

/-- The cursor after `,X`. -/
def indexSuffix? (c : Cursor) : Option Cursor :=
  (c.skipSpaces.eat? ',').bind fun c => c.skipSpaces.eatWord? "X"

/-- An address without index: direct if asked for or, unasked, if it is known to fit a byte. -/
def addressOperand (column : Nat) (force : Option Force) (v : Value) : Operand Mode Reg :=
  let short := !v.undefined && fitsUnsigned v.toInt 8
  let mode : Mode :=
    match force with
    | some .short => .dir
    | some .long => .ext
    | none => if short then .dir else .ext
  let op := ({ mode, force, column } : Operand Mode Reg).withValue v
  if force = some .short ∧ !v.undefined ∧ !short then
    op.failed (Cause.overflowRange.located column)
  else op

def parseOperand (scope : Scope) (c : Cursor) : Operand Mode Reg × Cursor :=
  match c.eat? '#' with
  | some after => ({ mode := .imm, column := c.pos } : Operand Mode Reg).parseValue scope after
  | none =>
    match if c.peek? = some ',' then indexSuffix? c else none with
    | some after => ({ mode := .idx, reg := some .x, column := c.pos }, after)
    | none =>
      let (force, body) := Force.read c
      match scope.eval body with
      | .error f => (({ mode := .ext, column := c.pos } : Operand Mode Reg).failed f, body)
      | .ok (v, after) =>
        match indexSuffix? after with
        | some after =>
          (Operand.withValue { mode := .idx, reg := some .x, column := c.pos } v, after)
        | none => (addressOperand c.pos force v, after)

/-- A direct address was asked for where there is only an extended form. -/
def widened : List (Slot Mode) → List (Operand Mode Reg) → Bool
  | slot :: slots, op :: ops =>
    (slot.mode == .extended && op.force == some .short) || widened slots ops
  | _, _ => false

def check (entry : Entry Mode) (ops : List (Operand Mode Reg)) : Option Cause :=
  if widened entry.slots ops then some .operandNotAllowed else none

/-- The mask with only bit `n` set, or with only it clear. -/
def bitMask (mode : Mode) (n : Nat) : Nat :=
  if mode = .bitClr then 0xFF - twoPow n else twoPow n

/-- A bit number becomes a mask byte. -/
def encodeCustom (_ : Entry Mode) (slot : Slot Mode) (op : Operand Mode Reg) (d : Draft) :
    Draft × Option Cause :=
  if op.undefined || fitsUnsigned op.value 3 then
    (d.emit .payload (bitMask slot.mode (op.value % 8).toNat) 1 op.column, none)
  else (d.emit .payload 0 1 op.column, some .illegalBitNumber)

/-- The lowest bit set in a byte, or 8 if none is. -/
def lowestBit (n : Nat) : Nat := ((List.range 8).find? n.testBit).getD 8

def decodeCustom (_ : Entry Mode) (slot : Slot Mode) (_ : Option UInt8) (d : Decoding) :
    Option (Operand Mode Reg) × Decoding :=
  let column := d.bytes.length
  let (mask, d) := d.read 1
  let bit := lowestBit (if slot.mode = .bitClr then 0xFF - mask else mask)
  (some { mode := slot.mode, value := bit, column }, d)

/-- A direct address is written with two digits unless a symbol stands for it, and an extended
address that looks direct is marked. -/
def formatOperand (r : Rendering) (op : Operand Mode Reg) : String :=
  match op.mode with
  | .imm8 => "#" ++ r.imm op.value 1
  | .imm16 => "#" ++ r.imm op.value 2
  | .imm => "#" ++ r.num op.value
  | .direct | .dir =>
    let text := r.place (UInt32.ofInt op.value)
    if text.toList.head? = some '$' then r.imm op.value 1 else text
  | .extended | .ext =>
    if op.value < 0x100 then ">" ++ r.imm op.value 2 else r.place (UInt32.ofInt op.value)
  | .indexed | .idx => if op.value = 0 then "0,X" else r.imm op.value 1 ++ ",X"
  | .rel => r.target op.value
  | .bitClr | .bitSet => Text.decimalInt op.value

def Variant.name : Variant → String
  | mc6800 => "mc6800"
  | mc6801 => "mc6801"
  | hd6301 => "hd6301"

def machine (variant : Variant) : Machine Mode Reg where
  name := variant.name
  config
  features := variant.features
  pages
  accepts
  shape
  parseOperand
  check
  encodeCustom
  decodeCustom
  formatOperand

end CrossAsm.M6800

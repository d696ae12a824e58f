import CrossAsm.Machine.Basic
import CrossAsm.Target.Ns32000.Table

/-! The NS32000 as a machine. A general operand is a field of five bits in the opcode, with a
scaled index in a byte of its own and a displacement or an immediate behind that. -/

namespace CrossAsm.Ns32000

def Reg.name : Reg → String
  | r0 => "R0"
  | r1 => "R1"
  | r2 => "R2"
  | r3 => "R3"
  | r4 => "R4"
  | r5 => "R5"
  | r6 => "R6"
  | r7 => "R7"
  | fp => "FP"
  | sp => "SP"
  | sb => "SB"
  | pc => "PC"

/-- The number of a register among the general ones, or among the bases of memory spaces. -/
def Reg.number : Reg → Nat
  | r0 | fp => 0
  | r1 | sp => 1
  | r2 | sb => 2
  | r3 | pc => 3
  | r4 => 4
  | r5 => 5
  | r6 => 6
  | r7 => 7

def general : List Reg := [.r0, .r1, .r2, .r3, .r4, .r5, .r6, .r7]

def spaces : List Reg := [.fp, .sp, .sb, .pc]

def Reg.isGeneral (reg : Reg) : Bool := general.contains reg

def config : Config :=
  { dialect := .national, addressBits := 24, origin := .start, ladder }

def accepts (category mode : Mode) : Bool :=
  let memory := mode == .regRel || mode == .space || mode == .abs || mode == .tos
  match category with
  | .gen => memory || mode == .reg || mode == .imm
  | .genW => memory || mode == .reg
  | .genA => memory || mode == .imm
  | .quick | .disp | .dispAbs => mode == .imm
  | .list | .listRev => mode == .regList
  | _ => false

def shape : Mode → Shape
  | .quick => .embedded true
  | .disp => .ladder true
  | .dispAbs => .ladder false
  | .gen | .genW | .genA | .list | .listRev => .custom
  | _ => .implied

/-! ### Operand syntax -/

/-- The register at the cursor. -/
def register? (c : Cursor) : Option (Reg × Cursor) :=
  (general ++ spaces).findSome? fun reg => (c.eatWord? reg.name).map fun after => (reg, after)

/-- A general register behind spaces. Another register is passed over all the same. -/
def generalRegister (c : Cursor) : Option Reg × Cursor :=
  match register? c with
  | some (reg, after) => (if reg.isGeneral then some reg else none, after)
  | none => (none, c)

/-- The registers of a list up to the closing bracket. A register can be named only once. -/
def parseRegisters (op : Operand Mode Reg) : Nat → Cursor → Operand Mode Reg × Cursor
  | 0, c => (op, c)
  | fuel + 1, c =>
    let c := c.skipSpaces
    match generalRegister c with
    | (none, after) => (op.failed (Cause.registerNotAllowed.located c.pos), after)
    | (some reg, after) =>
      if op.list.getLsbD reg.number then
        (op.failed (Cause.duplicateRegister.located c.pos), after)
      else
        let op := { op with list := op.list ||| BitVec.ofNat 8 (twoPow reg.number) }
        let after := after.skipSpaces
        match after.eat? ']', after.eat? ',' with
        | some after, _ => (op, after)
        | none, some after => parseRegisters op fuel after
        | none, none => (op.failed (Cause.missingClosingParen.located after.pos), after)

/-- A register list behind its opening bracket. Nine rounds cover the eight registers and one
named twice. -/
def parseList (column : Nat) (c : Cursor) : Operand Mode Reg × Cursor :=
  let op : Operand Mode Reg := { mode := .regList, column }
  let c := c.skipSpaces
  match c.eat? ']' with
  | some after => (op, after)
  | none => parseRegisters op 9 c

/-- The size letter of a scaled index. -/
def scale? (name : String) : Option Size :=
  match Text.upper name with
  | "B" => some .byte
  | "W" => some .word
  | "D" => some .long
  | "Q" => some .quad
  | _ => none

/-- A scaled index behind its opening bracket. -/
def parseScaled (op : Operand Mode Reg) (c : Cursor) : Operand Mode Reg × Cursor :=
  let c := c.skipSpaces
  match generalRegister c with
  | (none, after) => (op.failed (Cause.registerNotAllowed.located c.pos), after)
  | (some reg, after) =>
    let after := after.skipSpaces
    match after.eat? ':' with
    | none => (op.failed (Cause.illegalSize.located after.pos), after)
    | some after =>
      let sizeAt := after.skipSpaces
      match sizeAt.ident? with
      | none => (op.failed (Cause.illegalSize.located sizeAt.pos), sizeAt)
      | some (name, after) =>
        match scale? name with
        | none => (op.failed (Cause.illegalSize.located sizeAt.pos), after)
        | some size =>
          let after := after.skipSpaces
          match after.eat? ']' with
          | some after => ({ op with indexSize := size, index := some reg }, after)
          | none =>
            (Operand.failed { op with indexSize := size }
              (Cause.missingClosingParen.located after.pos), after)

/-- A displacement's base register behind the opening parenthesis. -/
def parseBase (op : Operand Mode Reg) (v : Value) (c : Cursor) : Operand Mode Reg × Cursor :=
  let c := c.skipSpaces
  let failed : Operand Mode Reg := { mode := .regRel, column := op.column }
  match register? c with
  | none => (failed.failed (Cause.unknownOperand.located c.pos), c)
  | some (reg, after) =>
    let after := after.skipSpaces
    match after.eat? ')' with
    | none => (failed.failed (Cause.missingClosingParen.located after.pos), after)
    | some after =>
      let mode : Mode := if reg.isGeneral then .regRel else .space
      (Operand.withValue { op with mode, reg := some reg } v, after)

/-- An operand that starts with an expression: an absolute address behind `@`, a displacement
from a register, or an immediate. -/
def parseAddress (scope : Scope) (column : Nat) (c : Cursor) : Operand Mode Reg × Cursor :=
  let (absolute, c) :=
    match c.eat? '@' with
    | some after => (true, after)
    | none => (false, c)
  let (force, c) := Force.read c
  let op : Operand Mode Reg := { mode := .imm, force, column }
  match scope.eval c with
  | .error f => (({ mode := .imm, column } : Operand Mode Reg).failed f, c)
  | .ok (v, after) =>
    if absolute then (Operand.withValue { op with mode := .abs } v, after)
    else
      let after := after.skipSpaces
      match after.eat? '(' with
      | some after => parseBase op v after
      | none => (op.withValue v, after)

/-- An operand before any scaled index. -/
def parsePlain (scope : Scope) (c : Cursor) : Operand Mode Reg × Cursor :=
  match c.eatWord? "TOS" with
  | some after => ({ mode := .tos, column := c.pos }, after)
  | none =>
    match register? c with
    | some (reg, after) =>
      let op : Operand Mode Reg := { mode := .reg, reg := some reg, column := c.pos }
      (if reg.isGeneral then op else op.failed (Cause.registerNotAllowed.located c.pos), after)
    | none => parseAddress scope c.pos c

def parseOperand (scope : Scope) (c : Cursor) : Operand Mode Reg × Cursor :=
  match c.eat? '[' with
  | some after => parseList c.pos after
  | none =>
    let (op, after) := parsePlain scope c
    if op.hardFault?.isSome then (op, after)
    else
      match after.skipSpaces.eat? '[' with
      | some after => parseScaled op after
      | none => (op, after)

/-! ### General operands -/

def isGen (mode : Mode) : Bool := mode == .gen || mode == .genW || mode == .genA

/-- The fields that are not a register, with or without displacement. -/
def genImmediate : Nat := 0x14
def genAbsolute : Nat := 0x15
def genTos : Nat := 0x17
def genSpace : Nat := 0x18
def genScaled : Nat := 0x1C

/-- Adds a displacement. -/
def encodeDisp (op : Operand Mode Reg) (relative : Bool) (d : Draft) : Draft :=
  d.extend .payload (.ladder op.value relative op.force op.undefined) op.column

/-- Adds an immediate, most significant byte first. One that does not fit leaves the field and a
zero. An immediate cannot be indexed. -/
def encodeImmediate (entry : Entry Mode) (slot : Slot Mode) (op : Operand Mode Reg) (d : Draft) :
    Draft × Except Cause Nat :=
  if op.index.isSome then (d, .error .operandNotAllowed)
  else
    match Width.sized.bytes? entry.size with
    | none => (d, .error .illegalSize)
    | some n =>
      if op.undefined || fitsSigned op.value (8 * n) || fitsUnsigned op.value (8 * n) then
        (d.extend .payload (.number op.value n .big) op.column, .ok genImmediate)
      else
        ((d.emit .payload 0 n op.column).embed (BitVec.ofNat 32 genImmediate) slot.pos slot.width,
          .error .overflowRange)

/-- Adds what stands behind the opcode for an operand without its index, and gives its field. -/
def encodeBase (entry : Entry Mode) (slot : Slot Mode) (op : Operand Mode Reg) (d : Draft) :
    Draft × Except Cause Nat :=
  let number := (op.reg.map Reg.number).getD 0
  match op.mode with
  | .reg => (d, .ok number)
  | .regRel => (encodeDisp op false d, .ok (8 + number))
  | .space => (encodeDisp op false d, .ok (genSpace + number))
  | .imm =>
    if slot.mode = .genA then (encodeDisp op true d, .ok (genSpace + 3))
    else encodeImmediate entry slot op d
  | .abs => (encodeDisp op false d, .ok genAbsolute)
  | .tos => (d, .ok genTos)
  | _ => (d, .error .operandNotAllowed)

/-- The code of an index size. -/
def scaleCode? : Size → Option Nat
  | .byte => some 0
  | .word => some 1
  | .long => some 2
  | .quad => some 3
  | .unsized => none

def encodeGen (entry : Entry Mode) (slot : Slot Mode) (op : Operand Mode Reg) (d : Draft) :
    Draft × Option Cause :=
  match encodeBase entry slot op d with
  | (d, .error cause) => (d, some cause)
  | (d, .ok base) =>
    match op.index with
    | none => (d.embed (BitVec.ofNat 32 base) slot.pos slot.width, none)
    | some index =>
      match scaleCode? op.indexSize with
      | none => (d, some .illegalSize)
      | some code =>
        let d := d.emit .index (8 * base + index.number : Nat) 1 op.column
        (d.embed (BitVec.ofNat 32 (genScaled + code)) slot.pos slot.width, none)

/-- A register list is a byte, in one of two bit orders. -/
def encodeCustom (entry : Entry Mode) (slot : Slot Mode) (op : Operand Mode Reg) (d : Draft) :
    Draft × Option Cause :=
  match slot.mode with
  | .list => (d.emit .payload op.list.toNat 1 op.column, none)
  | .listRev => (d.emit .payload op.list.reverse.toNat 1 op.column, none)
  | _ => encodeGen entry slot op d

/-- Operands that are written to are not immediate, and those whose address is taken are in
memory. -/
def refuses (mode : Mode) (gen : Nat) : Bool :=
  match mode with
  | .genW => gen == genImmediate
  | .genA => gen < 8 || gen == genImmediate
  | _ => false

/-- Reads a displacement as the value of an operand. -/
def decodeDisp (op : Operand Mode Reg) (d : Decoding) : Option (Operand Mode Reg) × Decoding :=
  let (v, d) := d.readLadder
  (some { op with value := v }, d)

/-- Reads what stands behind the opcode for the field `gen`. -/
def decodeBase (entry : Entry Mode) (mode : Mode) (gen : Nat) (indexed : Bool) (d : Decoding) :
    Option (Operand Mode Reg) × Decoding :=
  let column := d.bytes.length
  if gen < 8 then (some { mode := .reg, reg := general[gen]?, column }, d)
  else if gen < 16 then decodeDisp { mode := .regRel, reg := general[gen - 8]?, column } d
  else if gen = genImmediate ∧ !indexed then
    match Width.sized.bytes? entry.size with
    | none => (none, d.fail .illegalSize)
    | some n =>
      let (v, d) := d.readIn .big n
      (some { mode := .imm, value := v, column }, d)
  else if gen = genAbsolute then decodeDisp { mode := .abs, column } d
  else if gen = genTos then (some { mode := .tos, column }, d)
  else if gen = genSpace + 3 ∧ mode = .genA then
    let (v, d) := d.readLadder
    (some { mode := .pcrel, value := d.target v, column }, d)
  else if genSpace ≤ gen ∧ gen < genScaled then
    decodeDisp { mode := .space, reg := spaces[gen - genSpace]?, column } d
  else (none, d.fail .unknownOperand)

/-- The index size of a scaled field. -/
def scaleOf (field : Nat) : Size :=
  match (field - genScaled) % 4 with
  | 0 => .byte
  | 1 => .word
  | 2 => .long
  | _ => .quad

/-- Reads a general operand. With an index, the field is in the upper bits of the index byte. -/
def decodeGen (entry : Entry Mode) (slot : Slot Mode) (index : Option UInt8) (d : Decoding) :
    Option (Operand Mode Reg) × Decoding :=
  let field := slot.read d.opcode
  let gen := (index.map fun b => b.toNat / 8).getD field
  if refuses slot.mode gen then (none, d.fail .operandNotAllowed)
  else
    match decodeBase entry slot.mode gen index.isSome d, index with
    | (some op, d), some b =>
      (some { op with index := general[b.toNat % 8]?, indexSize := scaleOf field }, d)
    | found, _ => found

def decodeCustom (entry : Entry Mode) (slot : Slot Mode) (index : Option UInt8) (d : Decoding) :
    Option (Operand Mode Reg) × Decoding :=
  let column := d.bytes.length
  match slot.mode with
  | .list =>
    let (v, d) := d.read 1
    (some { mode := .regList, list := BitVec.ofNat 8 v, column }, d)
  | .listRev =>
    let (v, d) := d.read 1
    (some { mode := .regList, list := (BitVec.ofNat 8 v).reverse, column }, d)
  | _ => decodeGen entry slot index d

def hasIndexByte (mode : Mode) (field : Nat) : Bool := isGen mode && genScaled ≤ field

/-! ### Text of operands -/

def formatList (r : Rendering) (list : BitVec 8) : String :=
  let names := (general.filter fun reg => list.getLsbD reg.number).map fun reg => r.case reg.name
  "[" ++ ",".intercalate names ++ "]"

def scaleLetter : Size → String
  | .byte => "B"
  | .word => "W"
  | .long => "D"
  | _ => "Q"

def formatOperand (r : Rendering) (op : Operand Mode Reg) : String :=
  let reg := (op.reg.map fun reg => r.case reg.name).getD ""
  let base :=
    match op.mode with
    | .reg => reg
    | .regRel | .space => r.num op.value ++ "(" ++ reg ++ ")"
    | .abs => "@" ++ r.place (UInt32.ofInt op.value)
    | .tos => r.case "TOS"
    | .pcrel | .disp => r.target op.value
    | .regList => formatList r op.list
    | _ => r.num op.value
  match op.index with
  | some index =>
    base ++ "[" ++ r.case index.name ++ ":" ++ r.case (scaleLetter op.indexSize) ++ "]"
  | none => base

def machine : Machine Mode Reg where
  name := "ns32000"
  config
  pages
  accepts
  shape
  parseOperand
  encodeCustom
  decodeCustom
  hasIndexByte
  formatOperand

end CrossAsm.Ns32000

import CrossAsm.Machine.Basic
import CrossAsm.Target.Z80.Table

/-! The Z80 as a machine. -/

namespace CrossAsm.Z80

def Reg.name : Reg → String
  | b => "B"
  | c => "C"
  | d => "D"
  | e => "E"
  | h => "H"
  | l => "L"
  | a => "A"
  | i => "I"
  | r => "R"
  | bc => "BC"
  | de => "DE"
  | hl => "HL"
  | sp => "SP"
  | af => "AF"
  | afAlt => "AF\x27"
  | ix => "IX"
  | iy => "IY"
  | nz => "NZ"
  | z => "Z"
  | nc => "NC"
  | po => "PO"
  | pe => "PE"
  | p => "P"
  | m => "M"

/-- The mode of a register as it is written. -/
def Reg.mode : Reg → Mode
  | a => .regA
  | c => .regC
  | b | d | e | h | l => .r8
  | i => .regI
  | r => .regR
  | bc => .regBc
  | de => .regDe
  | hl => .regHl
  | sp => .regSp
  | af => .regAf
  | afAlt => .afAlt
  | ix => .regIx
  | iy => .regIy
  | nz | z | nc | po | pe | p | m => .cc

/-- The words of the operand syntax. -/
def words : List Reg :=
  [.af, .bc, .de, .hl, .sp, .ix, .iy, .nz, .nc, .po, .pe, .a, .b, .c, .d, .e, .h, .l, .i, .r, .z,
    .p, .m]

/-- Eight-bit registers by number; memory at HL has number 6. -/
def byteRegisters : List (Option Reg) :=
  [some .b, some .c, some .d, some .e, some .h, some .l, none, some .a]

/-- Conditions by number. -/
def conditions : List Reg := [.nz, .z, .nc, .c, .po, .pe, .p, .m]

def config : Config := {}

def accepts (category mode : Mode) : Bool :=
  match category with
  | .reg8 => mode == .regA || mode == .regC || mode == .r8
  | .reg8M => mode == .regA || mode == .regC || mode == .r8 || mode == .indHl
  | .pair => mode == .regBc || mode == .regDe || mode == .regHl || mode == .regSp
  | .pairAf => mode == .regBc || mode == .regDe || mode == .regHl || mode == .regAf
  | .pairIx => mode == .regBc || mode == .regDe || mode == .regIx || mode == .regSp
  | .pairIy => mode == .regBc || mode == .regDe || mode == .regIy || mode == .regSp
  | .a => mode == .regA
  | .hl => mode == .regHl
  | .de => mode == .regDe
  | .sp => mode == .regSp
  | .af => mode == .regAf
  | .afP => mode == .afAlt
  | .i => mode == .regI
  | .r => mode == .regR
  | .ix => mode == .regIx
  | .iy => mode == .regIy
  | .memHl => mode == .indHl
  | .memBc => mode == .indBc
  | .memDe => mode == .indDe
  | .memSp => mode == .indSp
  | .memC => mode == .indC
  | .jpIx | .idxIx => mode == .indIx
  | .jpIy | .idxIy => mode == .indIy
  | .abs16 | .port => mode == .indAbs
  | .imm8 | .imm16 | .addr | .rel | .bit | .rst | .imMode => mode == .imm
  | .cond | .condJr => mode == .cc || mode == .regC
  | _ => false

def shape : Mode → Shape
  | .reg8 | .reg8M | .pair | .pairAf | .pairIx | .pairIy | .cond | .condJr => .register
  | .abs16 | .addr => .absolute .word
  | .port => .absolute .byte
  | .idxIx | .idxIy => .indexed .byte true
  | .imm8 => .immediate .byte
  | .imm16 => .immediate .word
  | .rel => .relative .byte
  | .bit => .bit
  | .rst | .imMode => .custom
  | _ => .implied

/-- The register or condition at the cursor. A quote right after `AF` is part of the name. -/
def register? (c : Cursor) : Option (Reg × Cursor) :=
  match words.findSome? fun reg => (c.eatWord? reg.name).map fun after => (reg, after) with
  | some (.af, after) =>
    match after.eat? '\x27' with
    | some after => some (.afAlt, after)
    | none => some (.af, after)
  | found => found

/-- The mode of memory at a register, where there is one. -/
def indirect? : Reg → Option Mode
  | .hl => some .indHl
  | .bc => some .indBc
  | .de => some .indDe
  | .sp => some .indSp
  | .c => some .indC
  | .ix => some .indIx
  | .iy => some .indIy
  | _ => none

/-- Memory at an index register, with an optional displacement. -/
def parseIndexed (scope : Scope) (op : Operand Mode Reg) (c : Cursor) : Operand Mode Reg × Cursor :=
  let c := c.skipSpaces
  if c.peek? = some '+' ∨ c.peek? = some '-' then
    let (op, c) := op.parseValue scope c
    if op.hardFault?.isSome then (op, c) else op.close ')' c
  else op.close ')' c

/-- An operand in parentheses, behind the opening one. -/
def parseIndirect (scope : Scope) (column : Nat) (c : Cursor) : Operand Mode Reg × Cursor :=
  let c := c.skipSpaces
  match register? c with
  | some (reg, after) =>
    match indirect? reg with
    | some mode =>
      if mode = .indIx ∨ mode = .indIy then
        parseIndexed scope { mode, reg := some reg, column } after
      else ({ mode, column } : Operand Mode Reg).close ')' after
    | none =>
      (({ mode := .indHl, column } : Operand Mode Reg).failed
        (Cause.registerNotAllowed.located c.pos), after)
  | none =>
    let (op, after) := ({ mode := .indAbs, column } : Operand Mode Reg).parseValue scope c
    if op.hardFault?.isSome then (op, after) else op.close ')' after

def parseOperand (scope : Scope) (c : Cursor) : Operand Mode Reg × Cursor :=
  match c.eat? '(' with
  | some after => parseIndirect scope c.pos after
  | none =>
    match register? c with
    | some (reg, after) => ({ mode := reg.mode, reg := some reg, column := c.pos }, after)
    | none => ({ mode := .imm, column := c.pos } : Operand Mode Reg).parseValue scope c

/-- The number of a register pair; the index registers and AF share theirs with HL and SP. -/
def pairNumber? : Reg → Option Nat
  | .bc => some 0
  | .de => some 1
  | .hl | .ix | .iy => some 2
  | .sp | .af => some 3
  | _ => none

def registerField (category : Mode) (op : Operand Mode Reg) : Except Cause Nat :=
  if op.mode = .indHl then .ok 6
  else
    let number? : Option Nat := op.reg.bind fun reg =>
      match category with
      | .reg8 | .reg8M => byteRegisters.idxOf? (some reg)
      | .cond | .condJr => conditions.idxOf? reg
      | _ => pairNumber? reg
    match number? with
    | none => .error .registerNotAllowed
    | some n => if category = .condJr ∧ 3 < n then .error .operandNotAllowed else .ok n

def registerOperand (category : Mode) (field : Nat) : Option (Operand Mode Reg) :=
  let written (reg : Reg) : Operand Mode Reg := { mode := reg.mode, reg := some reg, column := 0 }
  let pair (third fourth : Reg) : Reg :=
    match field with
    | 0 => .bc
    | 1 => .de
    | 2 => third
    | _ => fourth
  match category with
  | .reg8M =>
    if field = 6 then some { mode := .indHl, column := 0 }
    else (byteRegisters.getD (field % 8) none).map written
  | .reg8 => (byteRegisters.getD (field % 8) none).map written
  | .cond | .condJr =>
    conditions[field % 8]?.map fun reg => { mode := .cc, reg := some reg, column := 0 }
  | .pair => some (written (pair .hl .sp))
  | .pairAf => some (written (pair .hl .af))
  | .pairIx => some (written (pair .ix .sp))
  | .pairIy => some (written (pair .iy .sp))
  | _ => none

/-- A load from and to memory at HL would be HALT, and a jump takes no displacement. -/
def check (entry : Entry Mode) (ops : List (Operand Mode Reg)) : Option Cause :=
  let halts := entry.name == "LD" && ops.length == 2 && ops.all (·.mode == .indHl)
  let jumps := entry.slots.any fun slot => slot.mode == .jpIx || slot.mode == .jpIy
  if halts || (jumps && ops.any (·.value != 0)) then some .operandNotAllowed else none

/-- The field of a restart vector or an interrupt mode. A vector not known yet goes in as it is;
an interrupt mode has to be one of three. -/
def customField (mode : Mode) (op : Operand Mode Reg) : Except Cause Int :=
  if mode = .rst then
    if op.undefined then .ok op.value
    else if 0 ≤ op.value ∧ op.value ≤ 0x38 ∧ op.value % 8 = 0 then .ok (op.value / 8)
    else .error .illegalConstant
  else
    match op.value with
    | 0 => .ok 0
    | 1 => .ok 2
    | 2 => .ok 3
    | _ => .error .illegalConstant

def encodeCustom (_ : Entry Mode) (slot : Slot Mode) (op : Operand Mode Reg) (d : Draft) :
    Draft × Option Cause :=
  match customField slot.mode op with
  | .ok field => (d.embed (BitVec.ofInt 32 field) slot.pos slot.width, none)
  | .error cause => (d, some cause)

def decodeCustom (_ : Entry Mode) (slot : Slot Mode) (_ : Option UInt8) (d : Decoding) :
    Option (Operand Mode Reg) × Decoding :=
  let field := slot.read d.opcode
  let op : Operand Mode Reg := { mode := slot.mode, column := 0 }
  if slot.mode = .rst then (some { op with value := 8 * field }, d)
  else
    match field with
    | 0 => (some op, d)
    -- There is no interrupt mode of this number.
    | 1 => (none, d.fail .illegalConstant)
    | n => (some { op with value := (n : Int) - 1 }, d)

/-- Memory at a displacement from an index register. -/
def formatIndexed (r : Rendering) (name : String) (v : Int) : String :=
  if v = 0 then "(" ++ r.case name ++ ")"
  else if v < 0 then "(" ++ r.case name ++ "-" ++ r.num (-v) ++ ")"
  else "(" ++ r.case name ++ "+" ++ r.num v ++ ")"

def formatOperand (r : Rendering) (op : Operand Mode Reg) : String :=
  match op.mode with
  | .indHl | .memHl => r.case "(HL)"
  | .indBc | .memBc => r.case "(BC)"
  | .indDe | .memDe => r.case "(DE)"
  | .indSp | .memSp => r.case "(SP)"
  | .indC | .memC => r.case "(C)"
  | .a => r.case "A"
  | .hl => r.case "HL"
  | .de => r.case "DE"
  | .sp => r.case "SP"
  | .af => r.case "AF"
  | .afP => r.case "AF\x27"
  | .i => r.case "I"
  | .r => r.case "R"
  | .ix => r.case "IX"
  | .iy => r.case "IY"
  | .indIx | .idxIx | .jpIx => formatIndexed r "IX" op.value
  | .indIy | .idxIy | .jpIy => formatIndexed r "IY" op.value
  | .indAbs | .abs16 => "(" ++ r.place (UInt32.ofInt op.value) ++ ")"
  | .port => "(" ++ r.imm op.value 1 ++ ")"
  | .imm8 | .rst => r.imm op.value 1
  | .imm16 => r.imm op.value 2
  | .imm => r.num op.value
  | .addr => r.place (UInt32.ofInt op.value)
  | .rel => r.target op.value
  | .bit | .imMode => Text.decimalInt op.value
  | _ => (op.reg.map fun reg => r.case reg.name).getD ""

def machine : Machine Mode Reg where
  name := "z80"
  config
  pages
  accepts
  shape
  parseOperand
  registerField
  registerOperand
  check
  encodeCustom
  decodeCustom
  formatOperand

end CrossAsm.Z80

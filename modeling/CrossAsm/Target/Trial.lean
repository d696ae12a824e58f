import CrossAsm.Machine.Basic

/-! A plain register machine for trying tables out. A slot lists the forms of operand it takes
and the shape it lays them down in, so any table can be written down as data. -/

namespace CrossAsm.Trial

/-- The forms of operand: `#n`, a register, a short or long address, and `n(Rk)`. -/
inductive Form where
  | imm
  | reg
  | short
  | long
  | idx
deriving DecidableEq, Repr

inductive Mode where
  | form (f : Form)
  | category (accepted : List Form) (shape : Shape)
deriving DecidableEq, Repr

/-- Registers by number. -/
abbrev Reg := Nat

def registerName (reg : Reg) : String := "R" ++ Text.decimal reg

/-- The registers that can be written. -/
def registers : List Reg := [0, 1, 2, 3, 4, 5, 6, 7]

def accepts : Mode → Mode → Bool
  | .category accepted _, .form f => accepted.contains f
  | _, _ => false

def shape : Mode → Shape
  | .category _ shape => shape
  | .form _ => .implied

def register? (c : Cursor) : Option (Reg × Cursor) :=
  registers.findSome? fun reg => (c.eatWord? (registerName reg)).map fun after => (reg, after)

/-- The register behind an opening parenthesis. Without a register the operand has none. -/
def parseIndexed (op : Operand Mode Reg) (c : Cursor) : Operand Mode Reg × Cursor :=
  match register? c with
  | none => (op, c)
  | some (reg, after) =>
    match after.eat? ')' with
    | some after => ({ op with reg := some reg }, after)
    | none => (op.failed (Cause.missingClosingParen.located after.pos), after)

/-- An address: short if asked for or, unasked, if it is known to fit a byte. -/
def addressForm (force : Option Force) (v : Value) : Form :=
  match force with
  | some .short => .short
  | some .long => .long
  | none => if !v.undefined && fitsUnsigned v.toInt 8 then .short else .long

def parseOperand (scope : Scope) (c : Cursor) : Operand Mode Reg × Cursor :=
  match c.eat? '#' with
  | some after =>
    ({ mode := .form .imm, column := c.pos } : Operand Mode Reg).parseValue scope after
  | none =>
    match register? c with
    | some (reg, after) => ({ mode := .form .reg, reg := some reg, column := c.pos }, after)
    | none =>
      let (force, body) := Force.read c
      match scope.eval body with
      | .error f => (({ mode := .form .long, column := c.pos } : Operand Mode Reg).failed f, body)
      | .ok (v, after) =>
        let op (f : Form) : Operand Mode Reg :=
          ({ mode := .form f, force, column := c.pos } : Operand Mode Reg).withValue v
        match after.eat? '(' with
        | some after => parseIndexed (op .idx) after
        | none => (op (addressForm force v), after)

def registerField (count : Nat) (_ : Mode) (op : Operand Mode Reg) : Except Cause Nat :=
  match op.reg with
  | some reg => if reg < count then .ok reg else .error .registerNotAllowed
  | none => .error .registerNotAllowed

def registerOperand (count : Nat) (_ : Mode) (field : Nat) : Option (Operand Mode Reg) :=
  if field < count then some { mode := .form .reg, reg := some field, column := 0 } else none

def formatOperand (r : Rendering) (op : Operand Mode Reg) : String :=
  let reg := (op.reg.map fun reg => r.case (registerName reg)).getD "?"
  match op.mode with
  | .form .reg => reg
  | .form _ => "-"
  | .category _ shape =>
    match shape with
    | .immediate _ | .embedded _ | .bit => "#" ++ r.num op.value
    | .absolute _ => r.place (UInt32.ofInt op.value)
    | .relative _ | .ladder true => r.target op.value
    | .indexed _ _ => r.num op.value ++ "(" ++ reg ++ ")"
    | .ladder false => r.num op.value
    | .implied | .register | .custom => "-"

/-- A machine with the given tables and so many registers. -/
def machine (config : Config) (pages : List (Page Mode)) (features : BitVec 32) (count : Nat) :
    Machine Mode Reg where
  name := "trial"
  config
  features
  pages
  accepts
  shape
  parseOperand
  registerField := registerField count
  registerOperand := registerOperand count
  formatOperand

end CrossAsm.Trial

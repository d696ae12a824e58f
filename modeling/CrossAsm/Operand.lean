import CrossAsm.Ladder
import CrossAsm.Value.Expression

/-! Operands as written in a line or found in an instruction. -/

namespace CrossAsm

/-- Size class of an entry, or of a scaled index. -/
inductive Size where
  | unsized
  | byte
  | word
  | long
  | quad
deriving DecidableEq, Repr

/-- The size asked for at the cursor: `<` for short, `>` for long. -/
def Force.read (c : Cursor) : Option Force × Cursor :=
  match c.eat? '<' with
  | some after => (some .short, after)
  | none =>
    match c.eat? '>' with
    | some after => (some .long, after)
    | none => (none, c)

/-- An operand in terms of a target's addressing modes and registers. -/
structure Operand (Mode Reg : Type) where
  mode : Mode
  value : Int := 0
  /-- The value depends on a symbol that is not known yet. -/
  undefined : Bool := false
  force : Option Force := none
  reg : Option Reg := none
  index : Option Reg := none
  indexSize : Size := .unsized
  /-- Register list, bit `n` for register `n`. -/
  list : BitVec 8 := 0
  /-- Byte offset of the operand in the line. -/
  column : Nat
  fault : Option Fault := none
deriving DecidableEq, Repr

namespace Operand

variable {Mode Reg : Type}

/-- Takes over an evaluated expression; a value not known yet is a soft fault. -/
def withValue (op : Operand Mode Reg) (v : Value) : Operand Mode Reg :=
  { op with
    value := v.toInt
    undefined := v.undefined
    fault := op.fault.or
      (if v.undefined then some (Cause.undefinedSymbol.located op.column) else none) }

def failed (op : Operand Mode Reg) (f : Fault) : Operand Mode Reg := { op with fault := some f }

/-- Takes over the expression at the cursor. -/
def parseValue (op : Operand Mode Reg) (scope : Scope) (c : Cursor) :
    Operand Mode Reg × Cursor :=
  match scope.eval c with
  | .ok (v, after) => (op.withValue v, after)
  | .error f => (op.failed f, c)

/-- Moves over a closing character behind spaces; without it the operand fails there. -/
def close (op : Operand Mode Reg) (ch : Char) (c : Cursor) : Operand Mode Reg × Cursor :=
  let c := c.skipSpaces
  match c.eat? ch with
  | some after => (op, after)
  | none => (op.failed (Cause.missingClosingParen.located c.pos), c)

/-- The fault that keeps the line from being encoded. -/
def hardFault? (op : Operand Mode Reg) : Option Fault := op.fault.filter fun f => !f.isSoft

end Operand

end CrossAsm

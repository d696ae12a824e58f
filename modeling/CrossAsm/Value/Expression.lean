import CrossAsm.Symbols
import CrossAsm.Value.Literal
import CrossAsm.Value.Operator

/-! Expressions: literals, quoted characters, symbols and the location counter under signs,
brackets and binary operators. Operators of one precedence associate to the left. -/

namespace CrossAsm

/-- What the names and the location counter in an expression stand for. -/
structure Scope where
  dialect : Dialect
  symbols : Symbols
  location : UInt32

namespace Scope

/-- A quoted character: its code point. -/
def quoted (c : Cursor) : Except Fault (Value × Cursor) :=
  let inside := c.advance 1
  match inside.peek? with
  | none => .error (Cause.missingClosingQuote.located c.pos)
  | some ch =>
    let after := inside.advance 1
    match after.eat? '\x27' with
    | none => .error (Cause.missingClosingQuote.located after.pos)
    | some c => .ok (.known (Int64.ofNat ch.toNat), c)

/-- A literal, the location counter or a symbol. -/
def atom (s : Scope) (c : Cursor) : Except Fault (Value × Cursor) :=
  match Literal.read? s.dialect c with
  | some (.ok (n, after)) => .ok (.known (Int64.ofNat n), after)
  | some (.error f) => .error f
  | none =>
    match c.eat? s.dialect.locationSymbol with
    | some after => .ok (.known (Int64.ofNat s.location.toNat), after)
    | none =>
      match c.ident? with
      | some (name, after) =>
        match s.symbols.value? name with
        | some n => .ok (.known (Int64.ofNat n.toNat), after)
        | none => .ok (.unknown, after)
      | none => .error (Cause.unknownOperand.located c.pos)

mutual

/-- An operand with its signs and brackets. -/
def unary (s : Scope) : Nat → Cursor → Except Fault (Value × Cursor)
  | 0, c => .error (Cause.internalError.located c.pos)
  | fuel + 1, c =>
    let c := c.skipSpaces
    match c.peek? with
    | none => .error (Cause.unknownOperand.located c.pos)
    | some ch =>
      match sign? ch with
      | some f =>
        match unary s fuel (c.advance 1) with
        | .ok (v, after) => .ok (v.map f, after)
        | .error f => .error f
      | none =>
        match closing? ch with
        | some close =>
          match binary s fuel 0 (c.advance 1) with
          | .ok (v, after) =>
            let after := after.skipSpaces
            match after.eat? close with
            | some after => .ok (v, after)
            | none => .error (Cause.missingClosingParen.located after.pos)
          | .error f => .error f
        | none => if ch = '\x27' then quoted c else s.atom c

/-- Operands joined by operators that bind more tightly than `least`. -/
def binary (s : Scope) : Nat → Nat → Cursor → Except Fault (Value × Cursor)
  | 0, _, c => .error (Cause.internalError.located c.pos)
  | fuel + 1, least, c =>
    match unary s fuel c with
    | .ok (v, after) => continued s fuel least v after
    | .error f => .error f

/-- The operators and operands that follow a left operand. -/
def continued (s : Scope) : Nat → Nat → Value → Cursor → Except Fault (Value × Cursor)
  | 0, _, _, c => .error (Cause.internalError.located c.pos)
  | fuel + 1, least, left, c =>
    let sign := c.skipSpaces
    match Operator.read? sign.rest with
    | none => .ok (left, c)
    | some (op, length) =>
      if op.precedence ≤ least then .ok (left, c)
      else
        match binary s fuel op.precedence (sign.advance length) with
        | .error f => .error f
        | .ok (right, after) =>
          match op.applied? left right with
          | some v => continued s fuel least v after
          | none => .error (Cause.divideByZero.located sign.pos)

end

/-- Two levels of the grammar for each character, and two for the end of the text, are as deep
as an expression can nest. -/
def depth (c : Cursor) : Nat := 2 * c.rest.length + 2

/-- Evaluates the expression at the cursor. A known result has to fit 32 bits. -/
def eval (s : Scope) (c : Cursor) : Except Fault (Value × Cursor) :=
  match s.binary (depth c) 0 c with
  | .error f => .error f
  | .ok (v, after) =>
    if v.undefined || v.inRange then .ok (v, after)
    else .error (Cause.overflowRange.located c.pos)

end Scope

end CrossAsm

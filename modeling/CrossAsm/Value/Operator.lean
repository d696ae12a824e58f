/-! Values of expressions in wrapping 64-bit arithmetic, and the operators on them. -/

namespace CrossAsm

/-- A number, and whether a symbol it depends on is not known yet. Such a symbol counts as 0. -/
structure Value where
  num : Int64
  undefined : Bool
deriving DecidableEq, Repr

namespace Value

def known (num : Int64) : Value := ⟨num, false⟩

def unknown : Value := ⟨0, true⟩

/-- Applies a sign, keeping what is known. -/
def map (f : Int64 → Int64) (v : Value) : Value := { v with num := f v.num }

def toInt (v : Value) : Int := v.num.toInt

/-- A finished expression fits a 32-bit word, signed or unsigned. -/
def inRange (v : Value) : Bool := -0x80000000 ≤ v.toInt ∧ v.toInt < 0x100000000

end Value

/-- What a sign in front of an operand does to it. -/
def sign? : Char → Option (Int64 → Int64)
  | '-' => some (- ·)
  | '+' => some id
  | '~' => some (~~~ ·)
  | '!' => some fun n => if n = 0 then 1 else 0
  | _ => none

/-- The bracket that closes an opening one. -/
def closing? : Char → Option Char
  | '(' => some ')'
  | '[' => some ']'
  | _ => none

inductive Operator where
  | or
  | xor
  | and
  | shiftLeft
  | shiftRight
  | add
  | sub
  | mul
  | div
  | rem
deriving DecidableEq, Repr

namespace Operator

def precedence : Operator → Nat
  | or => 1
  | xor => 2
  | and => 3
  | shiftLeft | shiftRight => 4
  | add | sub => 5
  | mul | div | rem => 6

/-- The operator at the head of the text and its length. -/
def read? : List Char → Option (Operator × Nat)
  | '<' :: '<' :: _ => some (shiftLeft, 2)
  | '>' :: '>' :: _ => some (shiftRight, 2)
  | '|' :: _ => some (or, 1)
  | '^' :: _ => some (xor, 1)
  | '&' :: _ => some (and, 1)
  | '+' :: _ => some (add, 1)
  | '-' :: _ => some (sub, 1)
  | '*' :: _ => some (mul, 1)
  | '/' :: _ => some (div, 1)
  | '%' :: _ => some (rem, 1)
  | _ => none

/-- Shift counts are taken modulo 64 and a right shift sees the low 32 bits; division goes
toward zero. A zero divisor has no result. -/
def compute : Operator → Int64 → Int64 → Option Int64
  | or, a, b => some (a ||| b)
  | xor, a, b => some (a ^^^ b)
  | and, a, b => some (a &&& b)
  | shiftLeft, a, b => some (a <<< b)
  | shiftRight, a, b => some ((a &&& 0xFFFFFFFF) >>> b)
  | add, a, b => some (a + b)
  | sub, a, b => some (a - b)
  | mul, a, b => some (a * b)
  | div, a, b => if b = 0 then none else some (a / b)
  | rem, a, b => if b = 0 then none else some (a % b)

/-- The result is unknown if either side is. A zero divisor is then a placeholder and gives 0. -/
def applied? (op : Operator) (a b : Value) : Option Value :=
  let undefined := a.undefined || b.undefined
  match op.compute a.num b.num with
  | some num => some ⟨num, undefined⟩
  | none => if undefined then some ⟨0, true⟩ else none

end Operator

end CrossAsm

import CrossAsm.Text.Blank
import CrossAsm.Text.Radix

/-! Numbers given as arguments: digits of one radix, with a plus sign in front if one likes. -/

namespace CrossAsm

inductive NumberError where
  | empty
  | invalidDigit
  | tooLarge
deriving DecidableEq, Repr

def NumberError.message : NumberError → String
  | empty => "cannot parse integer from empty string"
  | invalidDigit => "invalid digit found in string"
  | tooLarge => "number too large to fit in target type"

namespace Text

/-- Reads digits behind a number already read. The first character that is no digit or takes the
number to `bound` decides the error. -/
def accumulate (radix bound : Nat) : Nat → List Char → Except NumberError Nat
  | n, [] => .ok n
  | n, ch :: rest =>
    match digit? radix ch with
    | none => .error .invalidDigit
    | some d =>
      if n * radix + d < bound then accumulate radix bound (n * radix + d) rest
      else .error .tooLarge

/-- A number below `bound`. -/
def number (radix bound : Nat) : List Char → Except NumberError Nat
  | [] => .error .empty
  | ['+'] => .error .invalidDigit
  | '+' :: digits => accumulate radix bound 0 digits
  | digits => accumulate radix bound 0 digits

/-- The numbers of 32 bits are below this. -/
def wordBound : Nat := 0x100000000

/-- An address in decimal, or in hexadecimal behind `0x`, with blanks around it. -/
def address (s : String) : Except NumberError UInt32 :=
  UInt32.ofNat <$> match (trim s).toList with
    | '0' :: 'x' :: digits | '0' :: 'X' :: digits => number 16 wordBound digits
    | digits => number 10 wordBound digits

end Text

end CrossAsm

import CrossAsm.Dialect
import CrossAsm.Fault
import CrossAsm.Text.Cursor

/-! Number literals of each dialect. -/

namespace CrossAsm

/-- The radix announced by a sign in front of the digits. -/
def Dialect.sigil? : Dialect → Char → Option Nat
  | .intel, '$' => some 16
  | .motorola, '$' => some 16
  | .motorola, '%' => some 2
  | .motorola, '@' => some 8
  | .texas, '>' => some 16
  | _, _ => none

/-- The radix announced by a letter after a leading zero. -/
def Dialect.zeroLetter? : Dialect → Char → Option Nat
  | _, 'x' => some 16
  | _, 'X' => some 16
  | .national, 'b' => some 2
  | .national, 'B' => some 2
  | .national, 'o' => some 8
  | .national, 'O' => some 8
  | _, _ => none

/-- The length of the radix mark at the head of the text and the radix it announces. A mark
counts only in front of a digit of its radix. -/
def Dialect.radixMark? (d : Dialect) : List Char → Option (Nat × Nat)
  | a :: b :: rest =>
    match d.sigil? a with
    | some radix => if Text.isDigitOf radix b then some (1, radix) else none
    | none =>
      match d.zeroLetter? b with
      | some radix =>
        if a == '0' && rest.head?.any (Text.isDigitOf radix) then some (2, radix) else none
      | none => none
  | _ => none

namespace Literal

/-- The largest number a literal can denote. -/
def limit : Nat := 0xFFFFFFFF

/-- Reads the digits left to right; the first bad digit or the first excess decides. -/
def accumulate (radix : Nat) (value : Nat) : List Char → Except Cause Nat
  | [] => .ok value
  | c :: rest =>
    match Text.digit? radix c with
    | none => .error .illegalConstant
    | some d =>
      let value := value * radix + d
      if value ≤ limit then accumulate radix value rest else .error .overflowRange

/-- A run of digits that no identifier character continues. Faults point at `origin`. -/
def plain (radix origin : Nat) (c : Cursor) : Except Fault (Nat × Cursor) :=
  let digits := c.run (Text.isDigitOf radix)
  let after := c.advance digits.length
  if after.peek?.any Text.isIdentChar then .error (Cause.illegalConstant.located origin)
  else
    match accumulate radix 0 digits with
    | .ok n => .ok (n, after)
    | .error cause => .error (cause.located origin)

/-- The digits and the radix of a token whose last letter may be a radix suffix. `B` and `D`
are suffixes only after digits of their radix, since they are hexadecimal digits too. -/
def suffixed (token : List Char) : List Char × Nat :=
  let body := token.dropLast
  match token.getLast?.map Char.toUpper with
  | some 'H' => (body, 16)
  | some 'O' => (body, 8)
  | some 'Q' => (body, 8)
  | some 'B' => if body.all (Text.isDigitOf 2) then (body, 2) else (token, 10)
  | some 'D' => if body.all (Text.isDigitOf 10) then (body, 10) else (token, 10)
  | _ => (token, 10)

/-- A number with an optional radix suffix, up to the last letter or digit. -/
def withSuffix (origin : Nat) (c : Cursor) : Except Fault (Nat × Cursor) :=
  let token := c.run Char.isAlphanum
  let (digits, radix) := suffixed token
  match accumulate radix 0 digits with
  | .ok n => .ok (n, c.advance token.length)
  | .error cause => .error (cause.located origin)

/-- The literal at the cursor, if one starts there. -/
def read? (d : Dialect) (c : Cursor) : Option (Except Fault (Nat × Cursor)) :=
  match d.radixMark? c.rest with
  | some (length, radix) => some (plain radix c.pos (c.advance length))
  | none =>
    if c.peek?.any Char.isDigit then
      some (if d = .intel then withSuffix c.pos c else plain 10 c.pos c)
    else none

end Literal

end CrossAsm

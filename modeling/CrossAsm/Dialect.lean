import CrossAsm.Text.Radix

/-! The families of number syntax, and how each writes a number. -/

namespace CrossAsm

inductive Dialect where
  /-- `0FFH`, `377Q`, `1010B`, `$FF`, `0xFF`; the location counter is `$`. -/
  | intel
  /-- `$FF`, `%1010`, `@377`; the location counter is `*`. -/
  | motorola
  /-- `0xFF`, `0b1010`, `0o377`; the location counter is `*`. -/
  | national
  /-- `>FF`, `0xFF`; the location counter is `$`. -/
  | texas
deriving DecidableEq, Repr

namespace Dialect

def locationSymbol : Dialect → Char
  | intel | texas => '$'
  | motorola | national => '*'

/-- Hexadecimal with at least `width` digits. A suffixed number starts with a decimal digit,
so that it does not read as a name. -/
def hex (d : Dialect) (n width : Nat) : String :=
  match d with
  | intel =>
    let digits := Text.hexUpper width n
    (if digits.toList.head?.any Char.isAlpha then "0" ++ digits else digits) ++ "H"
  | motorola => "$" ++ Text.hexUpper width n
  | national => "0x" ++ Text.hexLower width n
  | texas => ">" ++ Text.hexUpper width n

/-- One decimal digit stays decimal, anything larger is hexadecimal after its sign. -/
def signed (d : Dialect) (i : Int) : String :=
  if -9 ≤ i ∧ i ≤ 9 then Text.decimalInt i
  else if i < 0 then "-" ++ d.hex i.natAbs 1
  else d.hex i.natAbs 1

end Dialect

end CrossAsm

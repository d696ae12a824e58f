import CrossAsm.Config
import CrossAsm.Symbols
import CrossAsm.Text.Blank

/-! How the numbers and addresses of a decoded instruction are written. -/

namespace CrossAsm

structure Style where
  /-- Write targets as a distance from the location counter. -/
  relative : Bool := false
  lowercase : Bool := false
  /-- Write `name+n` for addresses up to this far behind a symbol. -/
  nearest : UInt32 := 0
deriving DecidableEq, Repr

structure Rendering where
  config : Config
  symbols : Symbols
  style : Style
  /-- The address of the instruction. -/
  address : UInt32

namespace Rendering

def case (r : Rendering) (s : String) : String :=
  if r.style.lowercase then Text.lower s else Text.upper s

/-- An immediate of so many bytes, without the bits above them. -/
def imm (r : Rendering) (v : Int) (bytes : Nat) : String :=
  r.config.dialect.hex (v % twoPow (min (8 * bytes) 32)).toNat (2 * bytes)

/-- A small constant. -/
def num (r : Rendering) (v : Int) : String := r.config.dialect.signed v

/-- The symbol at or shortly before an address. -/
def symbol? (r : Rendering) (address : UInt32) : Option String :=
  match r.symbols.name? address with
  | some name => some name
  | none =>
    match r.symbols.nearest? address with
    | some (name, distance) =>
      if 0 < r.style.nearest ∧ distance ≤ r.style.nearest then
        some (name ++ "+" ++ Text.decimal distance.toNat)
      else none
    | none => none

/-- An address, by a symbol if there is one. -/
def place (r : Rendering) (address : UInt32) : String :=
  (r.symbol? address).getD (r.config.dialect.hex address.toNat r.config.addressDigits)

/-- The target of a jump. -/
def target (r : Rendering) (target : Int) : String :=
  if r.style.relative then
    let distance := target - r.address.toNat
    let here := String.singleton r.config.dialect.locationSymbol
    if distance = 0 then here
    else if distance < 0 then here ++ "-" ++ r.num (-distance)
    else here ++ "+" ++ r.num distance
  else r.place (UInt32.ofInt target)

end Rendering

end CrossAsm

import CrossAsm.Image
import CrossAsm.Target

/-! The instructions in a range of addresses, and their listing as text. -/

namespace CrossAsm

/-- Why a range cannot be listed. -/
inductive RangeError where
  | reversed
  | notMapped (start : UInt32)
deriving DecidableEq, Repr

def RangeError.message : RangeError → String
  | reversed => "end must be >= start"
  | notMapped start => "0x" ++ Text.hexLower 1 start.toNat ++ " is not mapped"

namespace Target

/-- Decodes up to `fuel` instructions one behind the other, below the address `stop`. -/
def sweepTo (t : Target) (symbols : Symbols) (style : Style) (stop : UInt32) :
    Nat → Reader → List Decoded
  | 0, _ => []
  | fuel + 1, r =>
    if r.hasNext && r.address < stop then
      let (item, r) := t.decode symbols style r
      if item.bytes.isEmpty then [] else item :: t.sweepTo symbols style stop fuel r
    else []

/-- The instructions from `start` up to `stop`, in the segment that holds `start`. -/
def decodeRange (t : Target) (image : Image) (start stop : UInt32) (symbols : Symbols)
    (style : Style) : Except RangeError (List Decoded) :=
  if stop < start then .error .reversed
  else
    match image.segmentAt? start with
    | none => .error (.notMapped start)
    | some segment =>
      let r := segment.memory.goto start
      .ok (t.sweepTo symbols style stop r.rest.length r)

end Target

/-- The lines of one instruction: its symbol, if it has one, and the instruction with its address,
its bytes if asked for, and its fault. -/
def Decoded.listing (symbols : Symbols) (showBytes : Bool) (digits : Nat) (d : Decoded) : String :=
  let address := Text.hexLower digits d.address.toNat
  let label :=
    match symbols.name? d.address with
    | some name => address ++ " <" ++ name ++ ">:\n"
    | none => ""
  let bytes :=
    if showBytes then String.join (d.bytes.map fun b => Text.hexLower 2 b.toNat ++ " ") ++ "  "
    else ""
  let text :=
    match d.fault with
    | some f => (if d.mnemonic.isEmpty then "??" else d.text) ++ "   ; " ++ f.message
    | none => d.text
  label ++ address ++ ": " ++ bytes ++ text ++ "\n"

/-- The listing of instructions, addresses written with so many digits at least. -/
def listing (items : List Decoded) (symbols : Symbols) (showBytes : Bool) (digits : Nat) : String :=
  String.join (items.map (·.listing symbols showBytes digits))

end CrossAsm

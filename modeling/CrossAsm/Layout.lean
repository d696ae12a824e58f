import CrossAsm.Config
import CrossAsm.Fault

/-! An instruction being put together, and its final layout. A relative displacement on a
ladder may lengthen the instruction, which moves the place it is measured from. -/

namespace CrossAsm

/-- Where an extension goes: before the opcode, right after it, or behind that. -/
inductive Stage where
  | gap
  | index
  | payload
deriving DecidableEq, Repr

inductive Field where
  | number (value : Int) (bytes : Nat) (endian : Endian)
  | relative (target : Int) (bytes : Nat) (undefined : Bool)
  | ladder (value : Int) (relative : Bool) (force : Option Force) (undefined : Bool)
deriving DecidableEq, Repr

/-- A field outside the opcode, and the column of the operand it belongs to. -/
structure Extension where
  stage : Stage
  field : Field
  column : Nat
deriving DecidableEq, Repr

namespace Extension

/-- The size to start from; a relative displacement starts as if it were 0. -/
def initialSize (ladder : List Rung) (e : Extension) : Nat :=
  match e.field with
  | .number _ bytes _ => bytes
  | .relative _ bytes _ => bytes
  | .ladder value false force undefined => Ladder.size ladder value force undefined
  | .ladder _ true force undefined => Ladder.size ladder 0 force undefined

/-- The size needed when displacements are measured from `base`; it never shrinks. -/
def grownSize (ladder : List Rung) (base : Int) (e : Extension) (size : Nat) : Nat :=
  match e.field with
  | .ladder value true force undefined =>
    max size (Ladder.size ladder (value - base) force undefined)
  | _ => size

/-- The bytes of an extension of the given size, measured from `base`. What cannot be
represented still takes up its size. -/
def render (config : Config) (base : Int) (e : Extension) (size : Nat) :
    List UInt8 × Option Cause :=
  match e.field with
  | .number value bytes endian => (endian.put bytes value, none)
  | .relative target bytes undefined =>
    let delta := if undefined then 0 else target - base
    (config.endian.put bytes delta,
      if fitsSigned delta (8 * bytes) then none else some .operandTooFar)
  | .ladder value relative _ undefined =>
    let v := if undefined then 0 else if relative then value - base else value
    match config.ladder.find? (·.bytes == size) with
    | some rung =>
      if rung.holds v then (rung.encode v, none)
      else (rung.encode 0, some (if relative then .operandTooFar else .overflowRange))
    | none => (List.replicate size 0, some .internalError)

end Extension

/-- An instruction while its operands are added. -/
structure Draft where
  address : UInt32
  config : Config
  lead : List UInt8 := []
  gap : Nat := 0
  opcodeCells : Nat := 1
  opcode : BitVec 32 := 0
  extensions : List Extension := []
deriving DecidableEq, Repr

namespace Draft

/-- Puts the low `width` bits of `field` into the opcode at bit `pos`. -/
def embed (d : Draft) (field : BitVec 32) (pos width : Nat) : Draft :=
  { d with opcode := d.opcode ||| ((field &&& BitVec.ofNat 32 (twoPow width - 1)) <<< pos) }

def setOpcode (d : Draft) (opcode : BitVec 32) : Draft := { d with opcode }

def extend (d : Draft) (stage : Stage) (field : Field) (column : Nat) : Draft :=
  { d with extensions := d.extensions ++ [⟨stage, field, column⟩] }

/-- Adds a number in the target's byte order. -/
def emit (d : Draft) (stage : Stage) (value : Int) (bytes column : Nat) : Draft :=
  d.extend stage (.number value bytes d.config.endian) column

/-- A displacement goes into the gap while that has room, then behind the opcode. -/
def dispStage (d : Draft) : Stage :=
  if (d.extensions.filter (·.stage == .gap)).length < d.gap then .gap else .payload

def opcodeBytes (d : Draft) : Nat := d.opcodeCells * d.config.cell.bytes

/-- Length of the instruction with extensions of these sizes. -/
def length (d : Draft) (sizes : List Nat) : Nat :=
  d.lead.length + d.opcodeBytes + sizes.foldr (· + ·) 0

/-- Where displacements are measured from in an instruction of so many bytes. -/
def base (d : Draft) (length : Nat) : Int :=
  match d.config.origin with
  | .start => d.address.toNat
  | .finish => d.address.toNat + (length / d.config.cell.bytes : Nat)

/-- Grows every relative displacement to what the current length asks for. -/
def grow (d : Draft) (sizes : List Nat) : List Nat :=
  d.extensions.zipWith (Extension.grownSize d.config.ladder (d.base (d.length sizes))) sizes

/-- The final sizes. One round for each rung and one more let the growth settle. -/
def sizes (d : Draft) : List Nat :=
  Nat.repeat d.grow (d.config.ladder.length + 1)
    (d.extensions.map (Extension.initialSize d.config.ladder))

/-- Every extension with its bytes and what is wrong with it. -/
def chunks (d : Draft) : List (Extension × List UInt8 × Option Cause) :=
  let base := d.base (d.length d.sizes)
  d.extensions.zipWith (fun e size => (e, e.render d.config base size)) d.sizes

/-- The bytes of one stage, in the order they were added. -/
def stageBytes (d : Draft) (stage : Stage) : List UInt8 :=
  d.chunks.flatMap fun c => if c.1.stage = stage then c.2.1 else []

/-- The finished bytes. -/
def bytes (d : Draft) : List UInt8 :=
  d.lead ++ d.stageBytes .gap ++ d.config.endian.put d.opcodeBytes d.opcode.toNat ++
    d.stageBytes .index ++ d.stageBytes .payload

/-- The first fault among the extensions. -/
def fault? (d : Draft) : Option Fault :=
  d.chunks.findSome? fun c => c.2.2.map (·.located c.1.column)

end Draft

end CrossAsm

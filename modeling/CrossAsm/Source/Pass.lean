import CrossAsm.Source.Statement
import CrossAsm.Target

/-! One pass over a source text: every statement is laid down at the location reached so far, with
the label values that the pass before found. -/

namespace CrossAsm

/-- Why a source text gives no program or a program no image. -/
inductive SourceError where
  | fault (line : Nat) (fault : Fault)
  | duplicateLabel (line : Nat) (name : String)
  | garbageAfterData (line : Nat)
  | unknownDirective (line : Nat)
  | unsettled (passes : Nat)
  | belowStart (line : Nat) (address start : UInt32)
deriving DecidableEq, Repr

namespace SourceError

/-- The line an error is about. -/
def line? : SourceError → Option Nat
  | fault line _ | duplicateLabel line _ | garbageAfterData line | unknownDirective line
  | belowStart line _ _ => some line
  | unsettled _ => none

def text : SourceError → String
  | fault _ f => f.message
  | duplicateLabel _ name => "label `" ++ name ++ "` defined twice"
  | garbageAfterData _ => "garbage after data"
  | unknownDirective _ => "unknown directive"
  | unsettled passes => "labels still moving after " ++ Text.decimal passes ++ " passes"
  | belowStart _ address start =>
    "address 0x" ++ Text.hexLower 1 address.toNat ++ " is below the image start 0x" ++
      Text.hexLower 1 start.toNat

def message (e : SourceError) : String :=
  match e.line? with
  | some line => "line " ++ Text.decimal line ++ ": " ++ e.text
  | none => e.text

end SourceError

/-- The bytes that a source line laid down. -/
structure Line where
  number : Nat
  address : UInt32
  bytes : List UInt8
  fault : Option Fault
deriving DecidableEq, Repr

/-- The addresses that `n` bytes take up; a cell begun counts. -/
def Cell.span (cell : Cell) (n : Nat) : UInt32 := UInt32.ofNat ((n + cell.bytes - 1) / cell.bytes)

namespace Action

/-- Numbers between commas. A number not known yet is laid down all the same, and the first such
gives the fault. -/
def numbers (scope : Scope) (endian : Endian) (width : Nat) :
    Nat → Cursor → Except Fault (List UInt8 × Option Fault × Cursor)
  | 0, c => .ok ([], none, c)
  | fuel + 1, c =>
    match scope.eval c.skipSpaces with
    | .error f => .error f
    | .ok (v, after) =>
      let bytes := endian.put width v.toInt
      let fault := if v.undefined then some (Cause.undefinedSymbol.located after.pos) else none
      match after.skipSpaces.eat? ',' with
      | none => .ok (bytes, fault, after.skipSpaces)
      | some next =>
        match numbers scope endian width fuel next with
        | .error f => .error f
        | .ok (more, later, last) => .ok (bytes ++ more, fault.or later, last)

/-- Lays a statement down at a location. The result is the line, if there is one, and the location
behind it. -/
def run (t : Target) (known : Symbols) (number : Nat) (location : UInt32) :
    Action → Except SourceError (Option Line × UInt32)
  | .nothing => .ok (none, location)
  | .unknownDirective => .error (.unknownDirective number)
  | .origin expression =>
    match Scope.eval ⟨t.config.dialect, known, location⟩ expression with
    | .error f => .error (.fault number f)
    | .ok (v, _) => .ok (none, if v.undefined then location else UInt32.ofInt v.toInt)
  | .data width items =>
    let scope : Scope := ⟨t.config.dialect, known, location⟩
    match numbers scope t.config.endian width (items.rest.length + 1) items with
    | .error f => .error (.fault number f)
    | .ok (bytes, fault, after) =>
      if after.atEnd then
        .ok (some ⟨number, location, bytes, fault⟩, location + t.config.cell.span bytes.length)
      else .error (.garbageAfterData number)
  | .instruction text =>
    let a := t.assemble known text location
    match a.fault.filter fun f => !f.isSoft with
    | some f => .error (.fault number f)
    | none =>
      .ok (some ⟨number, location, a.bytes, a.fault⟩, location + t.config.cell.span a.bytes.length)

end Action

namespace Statement

/-- The labels after this statement's own. A label may be written once. -/
def define (s : Statement) (location : UInt32) (defined : Symbols) : Except SourceError Symbols :=
  match s.label with
  | none => .ok defined
  | some name =>
    if (defined.value? name).isSome then .error (.duplicateLabel s.number name)
    else .ok (defined.define name location)

end Statement

/-- Lays down the statements from a location on. The result is the lines and all labels. -/
def pass (t : Target) (known : Symbols) :
    List Statement → UInt32 → Symbols → Except SourceError (List Line × Symbols)
  | [], _, defined => .ok ([], defined)
  | s :: rest, location, defined =>
    match s.define location defined with
    | .error e => .error e
    | .ok defined =>
      match s.action.run t known s.number location with
      | .error e => .error e
      | .ok (line, location) =>
        match pass t known rest location defined with
        | .error e => .error e
        | .ok (lines, labels) => .ok (line.toList ++ lines, labels)

end CrossAsm

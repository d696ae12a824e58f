import CrossAsm.Source.Pass

/-! Assembling a source text in passes until every label keeps its value, and the memory image of
the result. -/

namespace CrossAsm

structure Program where
  start : UInt32
  /-- Bytes that one address names. -/
  cellBytes : Nat
  lines : List Line
  symbols : Symbols
deriving DecidableEq

namespace Program

/-- Passes to run before giving up on labels that keep moving. -/
def maxPasses : Nat := 8

/-- Runs up to so many passes, the first with the labels `known`. A program is finished when a pass
finds the labels it started from; a fault still there then is final. -/
def settle (t : Target) (statements : List Statement) (start : UInt32) :
    Nat → Symbols → Except SourceError Program
  | 0, _ => .error (.unsettled maxPasses)
  | passes + 1, known =>
    match pass t known statements start ∅ with
    | .error e => .error e
    | .ok (lines, defined) =>
      if defined = known then
        match lines.findSome? fun l => l.fault.map (SourceError.fault l.number) with
        | some e => .error e
        | none => .ok ⟨start, t.config.cell.bytes, lines, defined⟩
      else settle t statements start passes defined

/-- Assembles a source text from a start address. -/
def assemble (t : Target) (text : String) (start : UInt32) : Except SourceError Program :=
  settle t (Statement.ofText text) start maxPasses ∅

/-- Writes bytes into an image at an offset. Zeros fill the way there. -/
def overlay (image : List UInt8) (offset : Nat) (bytes : List UInt8) : List UInt8 :=
  (image.take offset).rightpad offset 0 ++ bytes ++ image.drop (offset + bytes.length)

/-- Writes lines into an image one after the other. -/
def place (start : UInt32) (cellBytes : Nat) :
    List UInt8 → List Line → Except SourceError (List UInt8)
  | image, [] => .ok image
  | image, l :: rest =>
    if l.address < start then .error (.belowStart l.number l.address start)
    else
      place start cellBytes (overlay image ((l.address - start).toNat * cellBytes) l.bytes) rest

/-- The flat image from the start address on. Code below it has no place there. -/
def image (p : Program) : Except SourceError (List UInt8) := place p.start p.cellBytes [] p.lines

end Program

end CrossAsm

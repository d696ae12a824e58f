import CrossAsm.Command.Arguments
import CrossAsm.Command.Outcome
import CrossAsm.Report
import CrossAsm.Text.Number

/-! The command that assembles a source file into a binary file. -/

namespace CrossAsm

structure AssembleCommand where
  input : String
  output : String
  target : Target
  start : UInt32
  labelsOut : Option String
deriving DecidableEq, Repr

namespace AssembleCommand

def usage : Usage where
  options :=
    [("-i", "input"), ("--input", "input"), ("-o", "output"), ("--output", "output"),
      ("--cpu", "cpu"), ("--start", "start"), ("--labels-out", "labels-out")]
  flags := []
  plain := 0
  commands := []

def usageText : String :=
  "asm --input FILE --output FILE [--cpu CPU] [--start N] [--labels-out FILE]"

/-- A file name, which is not empty. -/
def path? (s : String) : Option String := if s.isEmpty then none else some s

def read (words : List String) : Option AssembleCommand := do
  let a ← Arguments.read usage words
  let input ← (← a.option? "input") |> path?
  let output ← (← a.option? "output") |> path?
  let target ← a.get "cpu" .mc6800 Target.ofName?
  let start ← a.get "start" 0 fun s => (Text.number 10 Text.wordBound s.toList).toOption
  let labelsOut ← a.get "labels-out" none fun s => (path? s).map some
  return ⟨input, output, target, UInt32.ofNat start, labelsOut⟩

/-- The files that the command reads. -/
def inputs (c : AssembleCommand) : List String := [c.input]

def run (c : AssembleCommand) (files : Files) : Except Failure Outcome := do
  let text ← (files.text c.input).mapError .file
  let program ← (Program.assemble c.target text c.start).mapError .source
  let image ← program.image.mapError .source
  let labels := program.symbols.json.text.toUTF8.toList
  return { writes := (c.output, image) :: c.labelsOut.toList.map fun path => (path, labels) }

end AssembleCommand

end CrossAsm

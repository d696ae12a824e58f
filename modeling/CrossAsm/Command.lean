import CrossAsm.Command.Assemble
import CrossAsm.Command.Disassemble

/-! The command lines of the assembler and the disassembler. -/

namespace CrossAsm

inductive Command where
  | assemble (command : AssembleCommand)
  | disassemble (command : DisassembleCommand)
deriving DecidableEq, Repr

namespace Command

def usageText : String := AssembleCommand.usageText ++ "\n       " ++ DisassembleCommand.usageText

def read : List String → Option Command
  | "asm" :: words => (AssembleCommand.read words).map assemble
  | "dis" :: words => (DisassembleCommand.read words).map disassemble
  | _ => none

/-- The files that a command reads. -/
def inputs : Command → List String
  | assemble c => c.inputs
  | disassemble c => c.inputs

def run (files : Files) : Command → Except Failure Outcome
  | assemble c => c.run files
  | disassemble c => c.run files

/-- What a command line leaves behind. -/
def outcome (words : List String) (files : Files) : Outcome :=
  match read words with
  | some c => .ofResult (c.run files)
  | none => .misuse usageText

/-- Runs a command line on a disk. The first file that cannot be written makes it fail. -/
def runOn (disk : Disk) (words : List String) : Outcome × Disk :=
  let o := outcome words disk.read
  match disk.writeAll o.writes with
  | (disk, none) => (o, disk)
  | (disk, some e) => (.failed (.file e), disk)

end Command

end CrossAsm

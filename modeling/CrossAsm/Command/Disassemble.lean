import CrossAsm.Command.Arguments
import CrossAsm.Command.Outcome
import CrossAsm.Report
import CrossAsm.Symbols.Read
import CrossAsm.Text.Number

/-! The command that loads a binary file and shows its segments, a range of its instructions, or
what is known of the target. -/

namespace CrossAsm

inductive Format where
  | text
  | json
deriving DecidableEq, Repr

def Format.ofName? : String → Option Format
  | "text" => some text
  | "json" => some json
  | _ => none

inductive View where
  | sections
  | range (start stop : UInt32) (showBytes : Bool) (format : Format) (out : Option String)
  | info
deriving DecidableEq, Repr

structure DisassembleCommand where
  target : Target
  base : UInt32
  skip : Nat
  length : Option Nat
  symbols : Option String
  style : Style
  input : String
  view : View
deriving DecidableEq, Repr

namespace View

def rangeUsage : Usage where
  options := [("--format", "format"), ("--out", "out")]
  flags := ["--show-bytes"]
  plain := 2
  commands := []

def range? (words : List String) : Option View := do
  let a ← Arguments.read rangeUsage words
  let [start, stop] := a.plain | none
  let start ← (Text.address start).toOption
  let stop ← (Text.address stop).toOption
  let format ← a.get "format" .text Format.ofName?
  return .range start stop (a.flag "--show-bytes") format (a.option? "out")

/-- The usage of a view that takes no words of its own. -/
def bareUsage : Usage where
  options := []
  flags := []
  plain := 0
  commands := []

/-- The view that a command and the words behind it ask for. -/
def read : String × List String → Option View
  | ("sections", words) => (Arguments.read bareUsage words).map fun _ => .sections
  | ("info", words) => (Arguments.read bareUsage words).map fun _ => .info
  | ("range", words) => range? words
  | _ => none

end View

namespace DisassembleCommand

def usage : Usage where
  options :=
    [("--cpu", "cpu"), ("--base", "base"), ("--skip", "skip"), ("--len", "len"),
      ("--symbols", "symbols"), ("--nearest", "nearest")]
  flags := ["--relative", "--lowercase"]
  plain := 1
  commands := ["sections", "range", "info"]

def usageText : String :=
  "dis [--cpu CPU] [--base N] [--skip N] [--len N] [--symbols FILE] [--relative] [--lowercase] " ++
    "[--nearest N] BINFILE (sections | range START END [--show-bytes] [--format text|json] " ++
    "[--out FILE] | info)"

/-- A count of bytes in a file. -/
def count? (s : String) : Option Nat := (Text.number 10 0x10000000000000000 s.toList).toOption

def read (words : List String) : Option DisassembleCommand := do
  let a ← Arguments.read usage words
  let input ← a.plain.head?
  let view ← a.command.bind View.read
  let target ← a.get "cpu" .mc6800 Target.ofName?
  let base ← a.get "base" 0 fun s => (Text.address s).toOption
  let skip ← a.get "skip" 0 count?
  let length ← a.get "len" none fun s => (count? s).map some
  let nearest ← a.get "nearest" 0 fun s => (Text.number 10 Text.wordBound s.toList).toOption
  let style : Style := ⟨a.flag "--relative", a.flag "--lowercase", UInt32.ofNat nearest⟩
  return ⟨target, base, skip, length, a.option? "symbols", style, input, view⟩

/-- The files that the command reads. -/
def inputs (c : DisassembleCommand) : List String := c.input :: c.symbols.toList

def readSymbols (files : Files) (path : String) : Except Failure Symbols := do
  let text ← (files.text path).mapError .file
  match Symbols.ofText? text with
  | some symbols => return symbols
  | none => throw (.symbols path)

/-- A column of a table, filled up with blanks. -/
def column (width : Nat) (s : String) : String := String.ofList (s.toList.rightpad width ' ')

def row (name start stop cells cell : String) : String :=
  " ".intercalate [column 16 name, column 10 start, column 10 stop, column 8 cells, column 6 cell]
    ++ "\n"

def address (a : UInt32) : String := "0x" ++ Text.hexLower 8 a.toNat

/-- The table of segments. -/
def sections (image : Image) : String :=
  row "name" "start" "end" "units" "unit" ++ String.join (image.segments.map fun s =>
    row s.name (address s.base) (address s.stop) (Text.decimal s.cells) (Text.lower s.cell.tag))

def range (c : DisassembleCommand) (image : Image) (symbols : Symbols) (start stop : UInt32)
    (showBytes : Bool) (format : Format) (out : Option String) : Except Failure Outcome := do
  unless image.isMapped start do throw (.range (.notMapped start))
  let items ← (c.target.decodeRange image start stop symbols c.style).mapError .range
  let text :=
    match format with
    | .text => listing items symbols showBytes c.target.config.addressDigits
    | .json => (Json.list (items.map Decoded.json)).text
  match out, format with
  | some path, _ => return { writes := [(path, text.toUTF8.toList)] }
  | none, .text => return { stdout := text }
  | none, .json => return { stdout := text ++ "\n" }

def run (c : DisassembleCommand) (files : Files) : Except Failure Outcome := do
  let file ← (files c.input).mapError .file
  let cell := c.target.config.cell
  let image ← (Image.load (Path.stem c.input) file c.base c.skip c.length cell).mapError .load
  let symbols ←
    match c.symbols with
    | some path => readSymbols files path
    | none => pure ∅
  match c.view with
  | .sections => return { stdout := sections image }
  | .range start stop showBytes format out =>
    c.range image symbols start stop showBytes format out
  | .info => return { stdout := c.target.json.text ++ "\n" }

end DisassembleCommand

end CrossAsm

import CrossAsm.Disk
import CrossAsm.Listing
import CrossAsm.Source.Program

/-! What a command leaves behind: exit code, output, and files to write. Files are read through a
function that the caller gives. -/

namespace CrossAsm

/-- Why a command with proper arguments fails. -/
inductive Failure where
  | file (e : FileError)
  | load (e : LoadError)
  | range (e : RangeError)
  | source (e : SourceError)
  | symbols (path : String)
deriving DecidableEq, Repr

def Failure.message : Failure → String
  | file e => e.message
  | load e => e.message
  | range e => e.message
  | source e => e.message
  | symbols path => path ++ ": not a list of symbols"

/-- The contents of a file by its name. -/
abbrev Files := String → Except FileError (List UInt8)

/-- The contents of a file as text. -/
def Files.text (files : Files) (path : String) : Except FileError String :=
  match files path with
  | .error e => .error e
  | .ok bytes =>
    match String.fromUTF8? bytes.toByteArray with
    | some text => .ok text
    | none => .error .notText

structure Outcome where
  exit : Nat := 0
  stdout : String := ""
  stderr : String := ""
  /-- Files to write, in this order. -/
  writes : List (String × List UInt8) := []
deriving DecidableEq, Repr

namespace Outcome

/-- The arguments make no sense. -/
def misuse (usage : String) : Outcome := { exit := 2, stderr := "usage: " ++ usage ++ "\n" }

def failed (e : Failure) : Outcome := { exit := 1, stderr := "Error: " ++ e.message ++ "\n" }

def ofResult : Except Failure Outcome → Outcome
  | .ok o => o
  | .error e => failed e

end Outcome

end CrossAsm

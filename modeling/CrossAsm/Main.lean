import CrossAsm.Command

/-! The program: reads the files that its command line names, runs the command, and writes what it
leaves behind. -/

namespace CrossAsm

/-- The error that the system reports. Its code may come with either sign. -/
def FileError.ofSystem (e : IO.Error) : FileError :=
  match e with
  | .noFileOrDirectory .. => .missing
  | .inappropriateType _ code _ =>
    if code = 20 ∨ code = -20 then .notDirectory
    else if code = 21 ∨ code = -21 then .isDirectory
    else .other (toString e)
  | _ => .other (toString e)

def readFile (path : String) : IO (Except FileError (List UInt8)) :=
  try
    return .ok (← IO.FS.readBinFile path).toList
  catch e => return .error (.ofSystem e)

/-- Writes the files of an outcome. The first that cannot be written turns it into a failure. -/
def Outcome.commit (o : Outcome) : IO Outcome := do
  try
    for (path, bytes) in o.writes do
      IO.FS.writeBinFile path bytes.toByteArray
    return o
  catch e => return .failed (.file (.ofSystem e))

end CrossAsm

open CrossAsm

def main (words : List String) : IO UInt32 := do
  let inputs := (Command.read words).elim [] Command.inputs
  let contents ← inputs.mapM fun path => return (path, ← readFile path)
  let files : Files := fun path => (contents.lookup path).getD (.error .missing)
  let o ← (Command.outcome words files).commit
  IO.print o.stdout
  IO.eprint o.stderr
  return UInt32.ofNat o.exit

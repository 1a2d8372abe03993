import Interpolation.Command.Manual
import Interpolation.Command.Reading
import Interpolation.Command.Report

/-!
# The program

Reads the files that a command is about, carries the command out, prints what comes of it, and
reports on the error stream.
-/

namespace Interpolation.Main

/-- Why the system has not read a file. -/
def readError : IO.Error → ReadError
  | .noFileOrDirectory _ code reason => .refused reason code.toNat
  | .inappropriateType _ code reason => .refused reason code.toNat
  | .permissionDenied _ code reason => .refused reason code.toNat
  | .invalidArgument _ code reason => .refused reason code.toNat
  | .resourceExhausted _ code reason => .refused reason code.toNat
  | .otherError code reason => .refused reason code.toNat
  | e => .refused e.toString 0

/-- Reads a file as text. -/
def readFile (name : String) : IO (Except ReadError String) := do
  try
    let bytes ← IO.FS.readBinFile name
    match String.fromUTF8? bytes with
    | some text => return .ok text
    | none => return .error .undecodable
  catch e => return .error (readError e)

/-- Carries out an invocation on the files there are. -/
def carryOut (i : Invocation) : IO Nat := do
  let contents ← i.command.files.mapM fun name ↦ return (name, ← readFile name)
  let x := i.command.execute fun name ↦ (contents.lookup name).getD (.error ReadError.missing)
  IO.eprint (x.report i.verbosity)
  IO.print x.output.printed
  return x.exitCode

end Interpolation.Main

def main (args : List String) : IO UInt32 := do
  match Interpolation.Invocation.ofArguments args with
  | .ok i => return (← Interpolation.Main.carryOut i).toUInt32
  | .error e =>
    IO.eprint e.complaint
    IO.print e.answer
    return e.exitCode.toUInt32

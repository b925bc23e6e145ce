import Nonlocal.Command.Run

/-!
The program: the command line of the actual machine.
-/

namespace Nonlocal

/-- The fault that an error of the machine amounts to. -/
def FileFault.ofError : IO.Error → FileFault
  | .noFileOrDirectory .. => .notFound
  | .inappropriateType _ _ detail =>
    if detail = "Not a directory" then .notDirectory else .isDirectory
  | .resourceExhausted _ _ detail =>
    if detail = "File name too long" then .nameTooLong else .other detail
  | e => .other (toString e)

instance : Host IO where
  readText path := do
    try
      match String.fromUTF8? (← IO.FS.readBinFile path) with
      | some text => return .ok text
      | none => return .error .invalidEncoding
    catch e => return .error (.ofError e)
  writeText path text := do
    try
      IO.FS.writeFile path text
      return .ok ()
    catch e => return .error (.ofError e)
  print text := IO.print text

end Nonlocal

open Nonlocal in
/-- Does what the arguments ask for, and says why it cannot. -/
def main (arguments : List String) : IO UInt32 := do
  let outcome ← (Command.run arguments : IO Command.Outcome)
  match outcome with
  | .failed failure => IO.eprintln s!"Error: {failure.message}"
  | .misused => IO.eprint Command.usage
  | .done => pure ()
  return outcome.exitCode

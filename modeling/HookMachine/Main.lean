import HookMachine.Program

/-!
The command line of the program.
-/

open HookMachine

/-- Reads a file of settings. -/
def readSettings (path : String) : IO (Except Config.InputFault ByteArray) := do
  try
    return .ok (← IO.FS.readBinFile path)
  catch
    | .permissionDenied .. => return .error .notPermitted
    | .inappropriateType _ code _ =>
        return .error (if code = 21 then .isDirectory else .notDirectory)
    | .invalidArgument .. => return .error .nameTooLong
    | _ => return .error .missingFile

def main (arguments : List String) : IO UInt32 := do
  let file ←
    match Program.configPath? arguments with
    | some path => readSettings path
    | none => pure (.error .missingFile)
  let report := Program.run arguments fun _ => file
  for (severity, text) in report.log do
    IO.println s!"{severity.name}: {text}"
  IO.print report.output
  IO.eprint report.errors
  return report.exitCode

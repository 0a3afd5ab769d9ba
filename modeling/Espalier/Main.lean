import Espalier.CommandLine.Text

/-!
# The program

Grows one plant along its guides and prints a summary as JSON on the standard output. The arguments
are those of `Espalier.CommandLine.run`; on a failure the reason goes to the standard error.
-/

namespace Espalier.CommandLine

/-- The reason why a file cannot be read. -/
def readReason : IO.Error → String
  | .noFileOrDirectory _ code details | .permissionDenied (some _) code details
  | .inappropriateType (some _) code details | .resourceExhausted (some _) code details
  | .invalidArgument (some _) code details =>
    details ++ " (os error " ++ toString code ++ ")"
  | e => toString e

/-- The text of the file at a path, or the reason why there is none. -/
def readText (path : String) : IO (Except String String) := do
  try
    return .ok (← IO.FS.readFile path)
  catch e =>
    return .error (readReason e)

end Espalier.CommandLine

def main (args : List String) : IO UInt32 := do
  let text ← match Espalier.CommandLine.value? args "--config" with
    | .ok (some path) => Espalier.CommandLine.readText path
    | _ => pure (.error "")
  match Espalier.CommandLine.report (Espalier.CommandLine.run args fun _ => text) with
  | .ok output =>
    IO.println output
    return 0
  | .error reason =>
    IO.eprintln reason
    return 1

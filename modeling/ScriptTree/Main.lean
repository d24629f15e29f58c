import ScriptTree.Command.Run
import ScriptTree.Text.Utf8

/-!
The program: reads the files that its arguments name, and prints what the run gives.
-/

namespace ScriptTree.Command

/-- Read a file. -/
def readFile (path : String) : IO (Except FileError String) := do
  try
    let bytes ← IO.FS.readBinFile path
    return match Text.Utf8.decode? bytes.toList with
      | some text => .ok text
      | none => .error .notText
  catch
    | .noFileOrDirectory .. => return .error .missing
    | .permissionDenied .. => return .error .denied
    | e => return .error (.other (toString e))

end ScriptTree.Command

open ScriptTree.Command

/-- Every argument may be the path of a file, so all of them are read before the run. -/
def main (arguments : List String) : IO UInt32 := do
  let contents ← arguments.mapM fun path => do return (path, ← readFile path)
  let files : Files := fun path => (contents.lookup path).getD (.error .missing)
  let outcome := run files arguments
  (← IO.getStdout).putStr outcome.stdout
  (← IO.getStderr).putStr outcome.stderr
  return outcome.exit.toUInt32

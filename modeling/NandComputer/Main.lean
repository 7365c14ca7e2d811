import NandComputer.Cli.Commands

/-!
The program: the commands on the files and streams of the system.
-/

namespace NandComputer

/-- The fault behind an error of the system. -/
def FileError.ofSystem : IO.Error → FileError
  | .noFileOrDirectory .. => .notFound
  | .inappropriateType _ code _ => if code = 21 then .isDirectory else .notDirectory
  | error => .other (toString error)

/-- The result of an action on a file. -/
def fileResult {α : Type} (action : IO α) : IO (Except FileError α) := do
  try return .ok (← action)
  catch error => return .error (.ofSystem error)

instance : Cli.Host IO where
  readFile path := do return (← fileResult (IO.FS.readBinFile path)).bind decodeText
  writeFile path contents := fileResult (IO.FS.writeFile path contents)
  print text := do
    let out ← IO.getStdout
    out.putStr text
    out.flush

end NandComputer

def main (arguments : List String) : IO UInt32 := do
  let exit ← NandComputer.Cli.invoke arguments
  IO.eprint exit.stderr
  return exit.code.toUInt32

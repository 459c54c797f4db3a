import Octet.Shell.Command

/-!
The command line on the files of the system.
-/

namespace Octet

def FileError.ofSystem : IO.Error → FileError
  | .noFileOrDirectory .. => .notFound
  | .inappropriateType _ 20 _ => .notDirectory
  | .inappropriateType _ 21 _ => .isDirectory
  | e => .refused (toString e)

def Files.ofSystem : Files IO where
  read path := do
    try
      return Entry.textOf (← IO.FS.readBinFile path).data.toList
    catch e =>
      return .error (.ofSystem e)
  write path text := do
    try
      IO.FS.writeFile path text
      return .ok ()
    catch e =>
      return .error (.ofSystem e)

end Octet

open Octet in
def main (arguments : List String) : IO UInt32 := do
  let exit ← Command.run Files.ofSystem arguments
  (← IO.getStdout).putStr exit.output
  (← IO.getStderr).putStr exit.errors
  return exit.code

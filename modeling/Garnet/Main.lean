import Garnet.CommandLine.Run

/-!
# The program

The compiler in the world of real files.
-/

namespace Garnet

/-- The fault behind an error of the operating system. -/
def FileFault.ofError : IO.Error → FileFault
  | .noFileOrDirectory .. => .notFound
  | .permissionDenied .. => .denied
  | .inappropriateType _ 20 _ => .notDirectory
  | .inappropriateType .. => .isDirectory
  | e => .other (toString e)

instance : FileStore IO where
  read path := do
    try
      let bytes := (← IO.FS.readBinFile path).data.toList
      if Utf8.isValid bytes then return .ok (Utf8.decode bytes) else return .error .notUtf8
    catch e => return .error (.ofError e)
  write path text := do
    try
      IO.FS.writeFile path text
      return .ok ()
    catch e => return .error (.ofError e)

end Garnet

def main (args : List String) : IO UInt32 := do
  let outcome ← Garnet.runCommand args
  IO.print outcome.stdout
  IO.eprint outcome.stderr
  return outcome.status.toUInt32

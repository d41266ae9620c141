import Unpack.Command.Invocation
import Unpack.Files.Route

open Unpack.Command

namespace Unpack.Main

-- What the operating system refused.
def faultOf : IO.Error → IoFault
  | .noFileOrDirectory .. => Files.Refusal.missing
  | .alreadyExists .. => Files.Refusal.occupied
  | .inappropriateType _ code _ =>
      if code = 21 then Files.Refusal.isADirectory else Files.Refusal.notADirectory
  | .permissionDenied .. => ⟨.permissionDenied, "Permission denied (os error 13)"⟩
  | error => ⟨.other, toString error⟩

-- Do something and tell what went wrong.
def attempt {α : Type} (act : IO α) : IO (Except IoFault α) := do
  match ← act.toBaseIO with
  | .ok value => return .ok value
  | .error error => return .error (faultOf error)

-- The files of the machine. Written files keep the time of writing, as there
-- is no way to set it.
instance : Host IO where
  openFile path := attempt do
    let metadata ← (← IO.FS.realPath path).metadata
    return ⟨some metadata.modified.sec, ← attempt (IO.FS.readBinFile path)⟩
  createFile path := attempt (IO.FS.writeBinFile path ByteArray.empty)
  writeFile path content := attempt (IO.FS.writeBinFile path content)
  createDirectories path := attempt do
    if path ≠ "" then
      IO.FS.createDirAll path
  setModified _ _ := return .ok ()
  isSameFile path other := do
    match ← (IO.FS.realPath path).toBaseIO, ← (IO.FS.realPath other).toBaseIO with
    | .ok path, .ok other => return path == other
    | _, _ => return false
  write bytes := do
    let stdout ← IO.getStdout
    stdout.write bytes
    stdout.flush
  complain text := IO.eprint text

end Unpack.Main

def main (arguments : List String) : IO UInt32 := do
  return (← Invocation.execute arguments).toUInt32

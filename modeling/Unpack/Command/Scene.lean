import Unpack.Command.Host
import Unpack.Files.Basic

namespace Unpack.Command

-- A world in which a command runs: files, and what was written so far.
structure Scene where
  tree : Files.Tree
  output : ByteArray
  complaints : String
  deriving DecidableEq

namespace Scene

def start (tree : Files.Tree) : Scene := ⟨tree, ByteArray.empty, ""⟩

instance : Inhabited Scene := ⟨start default⟩

-- Opening a directory is allowed, reading it is not.
def openFile (s : Scene) (path : String) : Except IoFault OpenFile := do
  match ← s.tree.find path with
  | (_, .file content modified) => return ⟨modified, .ok content⟩
  | (_, .directory modified) => return ⟨modified, .error Files.Refusal.isADirectory⟩

-- Change the files, unless the change is refused.
def change (alter : Files.Tree → Except IoFault Files.Tree) : StateM Scene (Except IoFault Unit) :=
  fun s =>
    match alter s.tree with
    | .ok tree => (.ok (), { s with tree := tree })
    | .error fault => (.error fault, s)

instance : Host (StateM Scene) where
  openFile path := fun s => (s.openFile path, s)
  createFile path := change (·.createFile path)
  writeFile path content := change (·.writeFile path content)
  createDirectories path := fun s =>
    match s.tree.createDirectories path with
    | (answer, tree) => (answer, { s with tree := tree })
  setModified path time := change (·.setModified path time)
  isSameFile path other := fun s =>
    match s.tree.find path, s.tree.find other with
    | .ok (location, _), .ok (found, _) => (location = found, s)
    | _, _ => (false, s)
  write bytes := fun s => ((), { s with output := s.output ++ bytes })
  complain text := fun s => ((), { s with complaints := s.complaints ++ text })

end Scene

end Unpack.Command

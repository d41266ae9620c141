import Unpack.Files.Route

namespace Unpack.Files

namespace Tree

-- The existing node at a path.
def find (t : Tree) (path : String) : Except IoFault (Location × Node) := do
  match ← (← Route.ofPath path).follow t with
  | .node location node => return (location, node)
  | .free _ => throw Refusal.missing

-- An empty file at a path, new or emptied.
def createFile (t : Tree) (path : String) : Except IoFault Tree := do
  let route ← Route.ofPath path
  match ← Route.start t route.names with
  | .free location =>
      if route.slashed then throw Refusal.isADirectory
      else return t.set location (.file ByteArray.empty none)
  | .node _ (.directory _) => throw Refusal.isADirectory
  | .node location (.file ..) =>
      if route.slashed then throw Refusal.isADirectory
      else return t.set location (.file ByteArray.empty none)

-- Replace the content of a file.
def writeFile (t : Tree) (path : String) (content : ByteArray) : Except IoFault Tree := do
  match ← t.find path with
  | (location, .file ..) => return t.set location (.file content none)
  | (_, .directory _) => throw Refusal.isADirectory

def setModified (t : Tree) (path : String) (time : Int) : Except IoFault Tree := do
  match ← t.find path with
  | (location, .file content _) => return t.set location (.file content time)
  | (location, .directory _) => return t.set location (.directory time)

-- A new directory.
def createDirectory (t : Tree) (names : List String) : Except IoFault Tree := do
  match ← Route.start t names with
  | .free location => return t.set location (.directory none)
  | .node .. => throw Refusal.occupied

-- The directory after a refusal to create it: no harm is done if it is there.
def keepDirectory (t : Tree) (names : List String) (fault : IoFault) : Except IoFault Unit :=
  match Route.start t names with
  | .ok (.node _ (.directory _)) => .ok ()
  | _ => .error fault

-- A directory, the directories that it lies in coming first. The names stand
-- in reverse. Directories stay when a later one cannot be created.
def createAll (t : Tree) : List String → Except IoFault Unit × Tree
  | [] => (.ok (), t)
  | name :: above =>
      let names := (name :: above).reverse
      match t.createDirectory names with
      | .ok t => (.ok (), t)
      | .error fault =>
          if fault.kind = .notFound then
            match createAll t above with
            | (.error fault, t) => (.error fault, t)
            | (.ok (), t) =>
                match t.createDirectory names with
                | .ok t => (.ok (), t)
                | .error fault => (t.keepDirectory names fault, t)
          else
            (t.keepDirectory names fault, t)

-- Every directory on a path. The empty path is where one is already.
def createDirectories (t : Tree) (path : String) : Except IoFault Unit × Tree :=
  if path = "" then (.ok (), t)
  else
    match Route.ofPath path with
    | .error fault => (.error fault, t)
    | .ok route => t.createAll (route.names.filter (· ≠ ".")).reverse

end Tree

end Unpack.Files

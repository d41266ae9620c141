import Unpack.Files.Tree
import Unpack.Text.Path

namespace Unpack.Files

-- How the operating system words its refusals.
namespace Refusal

def missing : IoFault := ⟨.notFound, "No such file or directory (os error 2)"⟩

def occupied : IoFault := ⟨.alreadyExists, "File exists (os error 17)"⟩

def notADirectory : IoFault := ⟨.notADirectory, "Not a directory (os error 20)"⟩

def isADirectory : IoFault := ⟨.isADirectory, "Is a directory (os error 21)"⟩

def tooLong : IoFault := ⟨.invalidFilename, "File name too long (os error 36)"⟩

def nul : IoFault := ⟨.invalidInput, "file name contained an unexpected NUL byte"⟩

end Refusal

-- The names on a path, and whether a slash follows the last of them. A path
-- that begins with a slash has that as its first name.
structure Route where
  names : List String
  slashed : Bool
  deriving Repr, DecidableEq

-- The most bytes that a name and a path may have.
def longestName : Nat := 255

def longestPath : Nat := 4095

namespace Route

def ofPath (path : String) : Except IoFault Route :=
  if path.toList.contains '\x00' then .error Refusal.nul
  else if path = "" then .error Refusal.missing
  else if longestPath < path.utf8ByteSize then .error Refusal.tooLong
  else
    let origin := if path.startsWith "/" then ["/"] else []
    .ok
      { names := origin ++ ((Text.Path.split path.toList).filter (· ≠ [])).map String.ofList
        slashed := path.toList.getLast? = some '/' }

-- Where a walk ends: at a node, or at a free place in a directory.
inductive Goal where
  | node (location : Location) (node : Node)
  | free (location : Location)
  deriving DecidableEq

-- Follow names from a directory on.
def walk (t : Tree) (here : Location) (node : Node) : List String → Except IoFault Goal
  | [] => .ok (.node here node)
  | name :: names =>
      if !node.isDirectory then .error Refusal.notADirectory
      else if name = "." then walk t here node names
      else if name = ".." then walk t here.above (.directory none) names
      else if name = "/" then walk t ["/"] (.directory none) names
      else if longestName < name.utf8ByteSize then .error Refusal.tooLong
      else
        let next := here ++ [name]
        match t.get? next with
        | some node => walk t next node names
        | none => if names = [] then .ok (.free next) else .error Refusal.missing

def start (t : Tree) (names : List String) : Except IoFault Goal :=
  walk t [] (.directory none) names

-- What the route leads to. What a slash follows must be a directory.
def follow (t : Tree) (route : Route) : Except IoFault Goal :=
  start t (if route.slashed then route.names ++ ["."] else route.names)

end Route

end Unpack.Files

import Unpack.Fault

namespace Unpack.Files

-- A file or a directory, and when it was last modified if that is known.
inductive Node where
  | file (content : ByteArray) (modified : Option Int)
  | directory (modified : Option Int)
  deriving DecidableEq

def Node.isDirectory : Node → Bool
  | .directory _ => true
  | .file .. => false

-- The names on the way from the root of a tree. Names `..` in front lead out of
-- the tree, and `/` in front leads to the root of the machine.
abbrev Location := List String

namespace Location

-- The directory that a location lies in. The machine's root lies in itself.
def above (location : Location) : Location :=
  if location = ["/"] then location
  else if location.all (· = "..") then location ++ [".."]
  else location.dropLast

-- Whether a location lies in the tree.
def isInside (location : Location) : Bool :=
  match location.head? with
  | some name => name ≠ ".." ∧ name ≠ "/"
  | none => true

-- What is written to this file is gone.
def nullDevice : Location := ["/", "dev", "null"]

-- Directories that are there whatever the tree holds.
def isGiven (location : Location) : Bool :=
  location.all (· = "..") ∨ [["/"], ["/", "dev"], ["/", "tmp"]].contains location

end Location

-- Files and directories below a root directory, and those that were put outside.
structure Tree where
  nodes : List (Location × Node)
  deriving DecidableEq

namespace Tree

def empty : Tree := ⟨[]⟩

instance : Inhabited Tree := ⟨empty⟩

def get? (t : Tree) (location : Location) : Option Node :=
  if location.isGiven then some (.directory none)
  else if location = .nullDevice then some (.file ByteArray.empty none)
  else t.nodes.lookup location

def insertInto (location : Location) (node : Node) :
    List (Location × Node) → List (Location × Node)
  | [] => [(location, node)]
  | found :: nodes =>
      if found.1 = location then (location, node) :: nodes
      else found :: insertInto location node nodes

-- What is given does not change.
def set (t : Tree) (location : Location) (node : Node) : Tree :=
  if location.isGiven ∨ location = .nullDevice then t
  else ⟨insertInto location node t.nodes⟩

def isDirectory (t : Tree) (location : Location) : Bool :=
  (t.get? location).any Node.isDirectory

def pathOf (location : Location) : String :=
  "/".intercalate location

-- All nodes in the tree with their paths, sorted by path.
def listing (t : Tree) : List (String × Node) :=
  ((t.nodes.filter (·.1.isInside)).map fun (location, node) => (pathOf location, node)).mergeSort
    fun a b => !(b.1 < a.1)

end Tree

end Unpack.Files

namespace Unpack.Text.Path

-- The parts between the slashes.
def split : List Char → List (List Char)
  | [] => [[]]
  | '/' :: rest => [] :: split rest
  | c :: rest =>
      match split rest with
      | [] => [[c]]
      | part :: parts => (c :: part) :: parts

def join (parts : List (List Char)) : List Char :=
  ['/'].intercalate parts

-- Whether a part names something below the place where it stands.
def isProper (part : List Char) : Bool :=
  part ≠ [] ∧ part ≠ ['.'] ∧ part ≠ ['.', '.']

-- What a path leads through: the root, the place where it begins, the
-- directory above, or something with a name.
inductive Component where
  | root
  | here
  | above
  | named (name : List Char)
  deriving Repr, DecidableEq

-- A part stands for nothing when it is empty or a dot.
def component? (part : List Char) : Option Component :=
  if part = [] ∨ part = ['.'] then none
  else if part = ['.', '.'] then some .above
  else some (.named part)

-- Where a path begins, if it says so: at the root, or with a dot.
def origin? (path : List Char) : Option Component :=
  if path.head? = some '/' then some .root
  else if (split path).head? = some ['.'] then some .here
  else none

def components (path : List Char) : List Component :=
  (origin? path).toList ++ (split path).filterMap component?

-- An underscore for NUL, which no file name may hold.
def replaceNul (c : Char) : Char :=
  if c = '\x00' then '_' else c

-- Of the components, only names are added to a path.
def enter (path : List Char) : Component → List Char
  | .named name => (if path = [] then [] else path ++ ['/']) ++ name.map replaceNul
  | _ => path

-- The path without its parts that lead nowhere or upwards.
def sanitize (path : String) : String :=
  String.ofList ((components path.toList).foldl enter [])

-- A path taken from a directory. One that begins at the root stays as it is.
def under (directory path : String) : String :=
  if path.toList.head? = some '/' then path
  else if directory = "" then path
  else if directory.toList.getLast? = some '/' then directory ++ path
  else directory ++ "/" ++ path

-- What stands before the last part: the directory that a path lies in.
def parent (path : String) : String :=
  let above := String.ofList (join (split path.toList).dropLast)
  if above = "" ∧ path.toList.head? = some '/' then "/" else above

-- The part after the last slash.
def lastPart (path : List Char) : List Char :=
  (split path).getLastD []

-- The parts that lead somewhere, be it upwards.
def steps (path : List Char) : List (List Char) :=
  (split path).filter fun part => part ≠ [] ∧ part ≠ ['.']

-- The name of what a path leads to. It is empty when the last step leads
-- upwards or there is none.
def fileName (path : String) : String :=
  String.ofList (((steps path.toList).getLast?.filter isProper).getD [])

end Unpack.Text.Path

import Unpack.Bytes
import Unpack.Text.Path
import Unpack.Zip.Stamp

namespace Unpack.Zip

-- How the data of an entry is compressed.
inductive Method where
  | stored
  | deflated
  | unknown (id : UInt16)
  deriving Repr, DecidableEq

namespace Method

instance : Inhabited Method := ⟨.stored⟩

def ofId (id : UInt16) : Method :=
  if id = 0 then .stored else if id = 8 then .deflated else .unknown id

def id : Method → UInt16
  | .stored => 0
  | .deflated => 8
  | .unknown id => id

def name : Method → String
  | .stored => "Stored"
  | .deflated => "Deflated"
  | .unknown _ => "Unknown"

-- The name, for an unknown method with its number.
def describe : Method → String
  | .unknown id => s!"Unknown({id.toNat})"
  | method => method.name

end Method

-- Compressed size in relation to size. Nothing counts as not compressed.
def ratio (compressed size : Nat) : Float :=
  if size = 0 then 1.0
  else (UInt64.ofNat compressed).toFloat / (UInt64.ofNat size).toFloat

-- Percentage of the size that compression saves.
def savings (compressed size : Nat) : Float :=
  (1.0 - ratio compressed size) * 100.0

-- What the central directory of an archive says about one file or directory.
-- `rawName` keeps name bytes that are not UTF-8; `name` is then a reading of
-- them.
structure Entry where
  name : String
  rawName : Option ByteArray
  method : Method
  crc : UInt32
  compressedSize : Nat
  size : Nat
  stamp : Stamp
  flags : UInt16
  extra : ByteArray
  comment : String
  offset : Nat
  deriving DecidableEq

namespace Entry

def empty : Entry where
  name := ""
  rawName := none
  method := .stored
  crc := 0
  compressedSize := 0
  size := 0
  stamp := ⟨0, 0⟩
  flags := 0
  extra := ByteArray.empty
  comment := ""
  offset := 0

instance : Inhabited Entry := ⟨empty⟩

-- A stored file.
def file (name : String) (size : Nat) : Entry :=
  { empty with name := name, compressedSize := size, size := size }

-- The name as the archive has it.
def encodedName (e : Entry) : ByteArray :=
  e.rawName.getD e.name.toUTF8

-- Directories are the entries whose names end with a slash.
def isDirectory (e : Entry) : Bool :=
  e.name.toList.getLast? = some '/'

def isFile (e : Entry) : Bool :=
  !e.isDirectory

-- Where the entry may be put below an output directory. Empty when its name
-- leads nowhere.
def relativePath (e : Entry) : String :=
  Text.Path.sanitize e.name

def ratio (e : Entry) : Float :=
  Zip.ratio e.compressedSize e.size

def savings (e : Entry) : Float :=
  Zip.savings e.compressedSize e.size

-- When the entry was last modified, in seconds since 1970-01-01 UTC.
def modified (e : Entry) : Option Nat :=
  e.stamp.toSeconds

-- Note a time in nanoseconds since 1970-01-01 UTC. Parts of a second are lost.
def setModified (e : Entry) (time : Int) : Entry :=
  { e with stamp := .ofSeconds (time / 1000000000) }

end Entry

end Unpack.Zip

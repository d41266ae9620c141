import Unpack.Checksum.Crc32
import Unpack.Deflate.StoredBlocks
import Unpack.Zip.Record

namespace Unpack.Zip

-- An archive in the making: the bytes so far, their entries, the comment to
-- come, and the time that new entries are stamped with.
structure Builder where
  out : ByteArray
  entries : Array Entry
  comment : String
  modified : Int

namespace Builder

def start (modified : Int) : Builder := ⟨ByteArray.empty, #[], "", modified⟩

-- Names and comments are UTF-8.
def utf8Flag : UInt16 := 0x0800

-- Quantities of the 32-bit layout.
def checkBound (quantity : BoundedQuantity) (value : Nat) : Except Fault Unit :=
  if value ≤ 0xFFFFFFFF then .ok () else .error (.invalidHeader (.beyondZip32 quantity value))

-- An entry that begins where the archive now ends.
def draft (b : Builder) (name : String) : Except Fault Entry :=
  if name.isEmpty then
    .error (.invalidHeader .emptyName)
  else if 0xFFFF < name.utf8ByteSize then
    .error (.invalidHeader (.nameTooLong name.utf8ByteSize))
  else
    .ok { Entry.empty with
      name := name
      flags := if name.toList.all (·.toNat < 128) then 0 else utf8Flag
      stamp := .ofSeconds b.modified
      offset := b.out.size }

def checkEntry (e : Entry) : Except Fault Unit := do
  checkBound .entrySize e.size
  checkBound .compressedSize e.compressedSize
  checkBound .localOffset e.offset

-- Append an entry and its data.
def append (e : Entry) (data : ByteArray) : Builder → Except Fault Unit × Builder
  | ⟨out, entries, comment, modified⟩ =>
      match checkEntry e with
      | .error fault => (.error fault, ⟨out, entries, comment, modified⟩)
      | .ok () =>
          let out := out ++ (LocalRecord.ofEntry e).toBytes ++ data
          (.ok (), ⟨out, entries.push e, comment, modified⟩)

-- Add data as it is.
def putStored (b : Builder) (name : String) (data : ByteArray) : Except Fault Unit × Builder :=
  match b.draft name with
  | .error fault => (.error fault, b)
  | .ok e =>
      b.append { e with crc := Crc32.of data, compressedSize := data.size, size := data.size } data

-- Add data as an encoder that starts anew makes it.
def putEncoded {κ : Type} [Encoder κ] (b : Builder) (name : String) (data : ByteArray)
    (encoder : κ) : Except Fault Unit × κ × Builder :=
  match Encoder.encodeAll (Encoder.reset encoder) data with
  | (.error fault, encoder) => (.error fault, encoder, b)
  | (.ok compressed, encoder) =>
      match b.draft name with
      | .error fault => (.error fault, encoder, b)
      | .ok e =>
          let e := { e with
            method := .deflated
            crc := Crc32.of data
            compressedSize := compressed.size
            size := data.size }
          let (answer, b) := b.append e compressed
          (answer, encoder, b)

-- Add data in stored blocks.
def putDeflated (b : Builder) (name : String) (data : ByteArray) : Except Fault Unit × Builder :=
  let (answer, _, b) := b.putEncoded name data Deflate.StoredBlocks.empty
  (answer, b)

-- Add a directory, whose name ends with a slash.
def putDirectory (b : Builder) (name : String) : Except Fault Unit × Builder :=
  let name := if name.toList.getLast? = some '/' then name else name.push '/'
  match b.draft name with
  | .error fault => (.error fault, b)
  | .ok e => b.append e ByteArray.empty

def directory (entries : Array Entry) : ByteArray :=
  entries.foldl (fun out e => out ++ CentralRecord.toBytes e) ByteArray.empty

-- The whole archive.
def finish (b : Builder) : Except Fault ByteArray := do
  if 0xFFFF < b.entries.size then
    throw (.invalidHeader (.tooManyEntries b.entries.size))
  if 0xFFFF < b.comment.utf8ByteSize then
    throw (.invalidHeader .commentTooLong)
  let directory := directory b.entries
  checkBound .directoryOffset b.out.size
  checkBound .directorySize directory.size
  let count := UInt16.ofNat b.entries.size
  let ending : EndRecord :=
    { disk := 0
      directoryDisk := 0
      diskEntries := count
      totalEntries := count
      directorySize := UInt32.ofNat directory.size
      directoryOffset := UInt32.ofNat b.out.size
      commentSize := UInt16.ofNat b.comment.utf8ByteSize }
  return b.out ++ directory ++ ending.toBytes b.comment.toUTF8

end Builder

end Unpack.Zip

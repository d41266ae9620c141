import Unpack.Bytes
import Unpack.Sink
import Unpack.Source.Basic
import Unpack.Text.Utf8
import Unpack.Zip.Entry

namespace Unpack.Zip

-- The signature that a record begins with.
def expectSignature (expected : Nat) (record : ByteArray) : Except Fault Unit :=
  if Bytes.le record 0 4 = expected then .ok ()
  else .error (.invalidMagic (Bytes.ofFields [(4, expected)]) (record.extract 0 4))

-- The version of the format that a reader needs.
def neededVersion (e : Entry) : Nat :=
  if e.method = .deflated ∨ e.isDirectory then 20 else 10

-- What reading a record does to a source.
abbrev Reading (σ α : Type) : Type := ExceptT Fault (StateM σ) α

def part {σ : Type} [Source σ] (reading : String) (n : Nat) : Reading σ ByteArray :=
  fun source => Source.readExactly reading source n

-- The record in front of the data of an entry.
structure LocalRecord where
  neededVersion : UInt16
  flags : UInt16
  method : UInt16
  stamp : Stamp
  crc : UInt32
  compressedSize : UInt32
  size : UInt32
  name : ByteArray
  extra : ByteArray
  deriving DecidableEq

namespace LocalRecord

def signature : Nat := 0x04034B50

def fixedSize : Nat := 30

def ofEntry (e : Entry) : LocalRecord where
  neededVersion := UInt16.ofNat (Zip.neededVersion e)
  flags := e.flags
  method := e.method.id
  stamp := e.stamp
  crc := e.crc
  compressedSize := UInt32.ofNat e.compressedSize
  size := UInt32.ofNat e.size
  name := e.encodedName
  extra := ByteArray.empty

def toBytes (l : LocalRecord) : ByteArray :=
  Bytes.ofFields
    [(4, signature), (2, l.neededVersion.toNat), (2, l.flags.toNat), (2, l.method.toNat),
      (2, l.stamp.time.toNat), (2, l.stamp.date.toNat), (4, l.crc.toNat),
      (4, l.compressedSize.toNat), (4, l.size.toNat), (2, l.name.size), (2, l.extra.size)]
    ++ l.name ++ l.extra

def write {ω : Type} [Sink ω] (l : LocalRecord) (out : ω) : Except Fault Nat × ω :=
  Sink.record out l.toBytes

def readAll {σ : Type} [Source σ] : Reading σ LocalRecord := do
  let fixed ← part "ZIP local header" fixedSize
  expectSignature signature fixed
  let name ← part "ZIP local header name" (Bytes.le fixed 26 2)
  let extra ← part "ZIP local header extra field" (Bytes.le fixed 28 2)
  return {
    neededVersion := UInt16.ofNat (Bytes.le fixed 4 2)
    flags := UInt16.ofNat (Bytes.le fixed 6 2)
    method := UInt16.ofNat (Bytes.le fixed 8 2)
    stamp := ⟨UInt16.ofNat (Bytes.le fixed 12 2), UInt16.ofNat (Bytes.le fixed 10 2)⟩
    crc := UInt32.ofNat (Bytes.le fixed 14 4)
    compressedSize := UInt32.ofNat (Bytes.le fixed 18 4)
    size := UInt32.ofNat (Bytes.le fixed 22 4)
    name := name
    extra := extra }

def read {σ : Type} [Source σ] (source : σ) : Except Fault LocalRecord × σ :=
  readAll source

-- Bytes from the start of the record to the data.
def length (l : LocalRecord) : Nat :=
  fixedSize + l.name.size + l.extra.size

def isBare (l : LocalRecord) : Bool :=
  l.name.size = 0 ∧ l.extra.size = 0

end LocalRecord

namespace CentralRecord

def signature : Nat := 0x02014B50

def fixedSize : Nat := 46

-- Made by version 3.0 on UNIX.
def versionMadeBy : Nat := 0x031E

-- File type and permissions in the upper half, the directory mark in the lower.
def attributes (e : Entry) : Nat :=
  if e.isDirectory then 0x41ED * 65536 + 0x10 else 0x81A4 * 65536

-- The record of an entry in the central directory.
def toBytes (e : Entry) : ByteArray :=
  Bytes.ofFields
    [(4, signature), (2, versionMadeBy), (2, neededVersion e), (2, e.flags.toNat),
      (2, e.method.id.toNat), (2, e.stamp.time.toNat), (2, e.stamp.date.toNat), (4, e.crc.toNat),
      (4, e.compressedSize), (4, e.size), (2, e.encodedName.size), (2, e.extra.size),
      (2, e.comment.utf8ByteSize), (2, 0), (2, 0), (4, attributes e), (4, e.offset)]
    ++ e.encodedName ++ e.extra ++ e.comment.toUTF8

def write {ω : Type} [Sink ω] (e : Entry) (out : ω) : Except Fault Nat × ω :=
  Sink.record out (toBytes e)

def readAll {σ : Type} [Source σ] : Reading σ Entry := do
  let fixed ← part "ZIP central directory record" fixedSize
  expectSignature signature fixed
  let nameSize := Bytes.le fixed 28 2
  let extraSize := Bytes.le fixed 30 2
  let commentSize := Bytes.le fixed 32 2
  let rest ← part "ZIP central directory name/extra/comment" (nameSize + extraSize + commentSize)
  let name := rest.extract 0 nameSize
  return {
    name := Text.ofUtf8 name
    rawName := if Text.isUtf8 name then none else some name
    method := .ofId (UInt16.ofNat (Bytes.le fixed 10 2))
    crc := UInt32.ofNat (Bytes.le fixed 16 4)
    compressedSize := Bytes.le fixed 20 4
    size := Bytes.le fixed 24 4
    stamp := ⟨UInt16.ofNat (Bytes.le fixed 14 2), UInt16.ofNat (Bytes.le fixed 12 2)⟩
    flags := UInt16.ofNat (Bytes.le fixed 8 2)
    extra := rest.extract nameSize (nameSize + extraSize)
    comment := Text.ofUtf8 (rest.extract (nameSize + extraSize) rest.size)
    offset := Bytes.le fixed 42 4 }

def read {σ : Type} [Source σ] (source : σ) : Except Fault Entry × σ :=
  readAll source

end CentralRecord

-- The record at the end of an archive, in front of the archive's comment.
structure EndRecord where
  disk : UInt16
  directoryDisk : UInt16
  diskEntries : UInt16
  totalEntries : UInt16
  directorySize : UInt32
  directoryOffset : UInt32
  commentSize : UInt16
  deriving Repr, DecidableEq

namespace EndRecord

def signature : Nat := 0x06054B50

def fixedSize : Nat := 22

def parse (bytes : ByteArray) : Except Fault EndRecord :=
  if bytes.size < fixedSize then
    .error (.unexpectedEnd "ZIP end of central directory")
  else do
    expectSignature signature bytes
    return {
      disk := UInt16.ofNat (Bytes.le bytes 4 2)
      directoryDisk := UInt16.ofNat (Bytes.le bytes 6 2)
      diskEntries := UInt16.ofNat (Bytes.le bytes 8 2)
      totalEntries := UInt16.ofNat (Bytes.le bytes 10 2)
      directorySize := UInt32.ofNat (Bytes.le bytes 12 4)
      directoryOffset := UInt32.ofNat (Bytes.le bytes 16 4)
      commentSize := UInt16.ofNat (Bytes.le bytes 20 2) }

-- Whether the archive is spread over several disks.
def spansDisks (r : EndRecord) : Bool :=
  r.disk ≠ 0 ∨ r.directoryDisk ≠ 0 ∨ r.diskEntries ≠ r.totalEntries

-- The record with the comment behind it, whose length is the one written.
def toBytes (r : EndRecord) (comment : ByteArray) : ByteArray :=
  Bytes.ofFields
    [(4, signature), (2, r.disk.toNat), (2, r.directoryDisk.toNat), (2, r.diskEntries.toNat),
      (2, r.totalEntries.toNat), (4, r.directorySize.toNat), (4, r.directoryOffset.toNat),
      (2, comment.size)]
    ++ comment

end EndRecord

end Unpack.Zip

import Unpack.Bytes
import Unpack.Checksum.Crc32
import Unpack.Source.Basic
import Unpack.Text.Latin1

namespace Unpack.Gzip

-- The header of a GZIP member (RFC 1952). The flags tell which of the optional
-- parts a written header has.
structure Header where
  flags : UInt8
  mtime : UInt32
  extraFlags : UInt8
  os : UInt8
  extra : Option ByteArray
  filename : Option String
  comment : Option String
  headerCrc : Option UInt16
  deriving DecidableEq

namespace Header

-- The operating system is unknown.
def unknownOs : UInt8 := 255

def empty : Header := ⟨0, 0, 0, unknownOs, none, none, none, none⟩

instance : Inhabited Header := ⟨empty⟩

def magic : ByteArray := ⟨#[0x1F, 0x8B]⟩

-- The only compression method: DEFLATE.
def method : UInt8 := 8

-- The parts that a flag announces.
inductive Part where
  | headerCrc
  | extra
  | filename
  | comment
  deriving Repr, DecidableEq

def Part.flag : Part → UInt8
  | .headerCrc => 0x02
  | .extra => 0x04
  | .filename => 0x08
  | .comment => 0x10

-- Flags without a meaning, which must be zero.
def reserved : UInt8 := 0xE0

def announces (h : Header) (part : Part) : Bool :=
  h.flags &&& part.flag ≠ 0

def named (filename : String) : Header :=
  { empty with flags := Part.filename.flag, filename := some filename }

-- Times outside the 32-bit range are moved to its nearer end.
def withTime (h : Header) (seconds : Int) : Header :=
  { h with mtime := UInt32.ofNat (min seconds.toNat 0xFFFFFFFF) }

-- The modification time in seconds, zero meaning none.
def modified (h : Header) : Option Nat :=
  if h.mtime = 0 then none else some h.mtime.toNat

-- The low half of the CRC-32 of the header before it, whose parts are added
-- one after the other.
def crc16 (parts : List ByteArray) : UInt16 :=
  (parts.foldl Crc32.update .empty).value.toUInt16

def fixedBytes (h : Header) : ByteArray :=
  let out := ((magic.push method).push (h.flags &&& ~~~reserved))
  ((Bytes.putLe out 4 h.mtime.toNat).push h.extraFlags).push h.os

def extraBytes (h : Header) : Except Fault ByteArray :=
  if h.announces .extra then
    let extra := h.extra.getD ByteArray.empty
    if extra.size ≤ 0xFFFF then .ok (Bytes.putLe ByteArray.empty 2 extra.size ++ extra)
    else .error (.invalidHeader .extraTooLong)
  else
    .ok ByteArray.empty

def textBytes (announced : Bool) (text : Option String) : ByteArray :=
  if announced then (Text.toLatin1 (text.getD "")).push 0 else ByteArray.empty

-- The header as bytes. A part is written when its flag is set.
def toBytes (h : Header) : Except Fault ByteArray := do
  let extra ← h.extraBytes
  let out := h.fixedBytes ++ extra ++ textBytes (h.announces .filename) h.filename
    ++ textBytes (h.announces .comment) h.comment
  return if h.announces .headerCrc then Bytes.putLe out 2 (crc16 [out]).toNat else out

variable {σ : Type} [Source σ]

-- Bytes up to a zero byte, which is consumed too; `got` are those already read.
def readText (reading : String) : (rounds : Nat) → (got : ByteArray) → σ →
    Except Fault ByteArray × σ
  | 0, _, source => (.error (.unexpectedEnd reading), source)
  | rounds + 1, got, source =>
      match Source.readExactly reading source 1 with
      | (.error fault, source) => (.error fault, source)
      | (.ok byte, source) =>
          if Bytes.octet byte 0 = 0 then (.ok got, source)
          else readText reading rounds (got ++ byte) source

def readZeroEnded (reading : String) (source : σ) : Except Fault ByteArray × σ :=
  readText reading (Source.left source + 1) ByteArray.empty source

-- What reading a header does to a source.
abbrev Reading (σ α : Type) : Type := ExceptT Fault (StateM σ) α

def part (reading : String) (n : Nat) : Reading σ ByteArray :=
  fun source => Source.readExactly ("GZIP header " ++ reading) source n

def textPart (reading : String) : Reading σ ByteArray :=
  fun source => readZeroEnded ("GZIP header " ++ reading) source

-- The ten bytes that every header begins with.
def ofFixed (fixed : ByteArray) : Except Fault Header := do
  let flags := (Bytes.octet fixed 3).toUInt8
  unless fixed.extract 0 2 = magic do
    throw (.invalidMagic magic (fixed.extract 0 2))
  unless Bytes.octet fixed 2 = method.toNat do
    throw (.unsupportedMethod s!"GZIP method {Bytes.octet fixed 2}")
  unless flags &&& reserved = 0 do
    throw (.invalidHeader (.reservedFlags flags.toNat))
  return { empty with
    flags := flags
    mtime := UInt32.ofNat (Bytes.le fixed 4 4)
    extraFlags := (Bytes.octet fixed 8).toUInt8
    os := (Bytes.octet fixed 9).toUInt8 }

-- Each optional part answers with the header so far and the pieces that have
-- been read so far.
def readExtra (h : Header) (seen : List ByteArray) : Reading σ (Header × List ByteArray) := do
  if h.announces .extra then
    let size ← part "extra length" 2
    let extra ← part "extra field" (Bytes.le size 0 2)
    return ({ h with extra := some extra }, seen ++ [size] ++ [extra])
  else
    return (h, seen)

def readFilename (h : Header) (seen : List ByteArray) : Reading σ (Header × List ByteArray) := do
  if h.announces .filename then
    let text ← textPart "filename"
    return ({ h with filename := some (Text.ofLatin1 text) }, seen ++ [text.push 0])
  else
    return (h, seen)

def readComment (h : Header) (seen : List ByteArray) : Reading σ (Header × List ByteArray) := do
  if h.announces .comment then
    let text ← textPart "comment"
    return ({ h with comment := some (Text.ofLatin1 text) }, seen ++ [text.push 0])
  else
    return (h, seen)

def readCrc (h : Header) (seen : List ByteArray) : Reading σ Header := do
  if h.announces .headerCrc then
    let bytes ← part "CRC" 2
    let expected := UInt16.ofNat (Bytes.le bytes 0 2)
    let computed := crc16 seen
    unless expected = computed do
      throw (.checksumMismatch .headerCrc16 expected.toUInt32 computed.toUInt32)
    return { h with headerCrc := some expected }
  else
    return h

def readAll : Reading σ Header := do
  let fixed ← part "fixed fields" 10
  let h ← ofFixed fixed
  let (h, seen) ← readExtra h [fixed]
  let (h, seen) ← readFilename h seen
  let (h, seen) ← readComment h seen
  readCrc h seen

-- Read a header and leave the source at the compressed data.
def read (source : σ) : Except Fault Header × σ :=
  readAll source

end Header

end Unpack.Gzip

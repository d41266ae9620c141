import Unpack.Deflate.DecodedStream
import Unpack.Gzip.Header
import Unpack.Source.Collect

namespace Unpack.Gzip

open Deflate (DecodedStream)

-- The decoded bytes of a GZIP member that is read from a source. Checksum and
-- size of all bytes handed out are checked before the end is announced.
structure Member (σ : Type) where
  header : Header
  stream : DecodedStream σ
  crc : Crc32
  size : Nat
  verified : Bool

namespace Member

variable {σ : Type} [Source σ]

-- Read the header.
def ofSource (source : σ) : Except Fault (Member σ) × σ :=
  match Header.read source with
  | (.error fault, source) => (.error fault, source)
  | (.ok header, source) => (.ok ⟨header, .new source .raw, .empty, 0, false⟩, source)

-- Change the source that the rest is read from.
def mapSource (change : σ → σ) (m : Member σ) : Member σ :=
  { m with stream := { m.stream with source := change m.stream.source } }

-- The trailer holds the low 32 bits of the size.
def sizeModulus : Nat := 0x100000000

-- Checksum and size, eight bytes.
def trailerSize : Nat := 8

-- The trailer begins with what the decoder left over; the source has the rest.
def readTrailer (m : Member σ) : Except Fault ByteArray × Member σ :=
  let leftover := m.stream.decoder.unread
  if trailerSize ≤ leftover.size then
    (.ok (leftover.extract 0 trailerSize), m)
  else
    match m with
    | ⟨header, ⟨source, decoder, ended⟩, crc, size, verified⟩ =>
        match Source.readExactly "GZIP trailer" source (trailerSize - leftover.size) with
        | (.error fault, source) =>
            (.error fault, ⟨header, ⟨source, decoder, ended⟩, crc, size, verified⟩)
        | (.ok bytes, source) =>
            (.ok (leftover ++ bytes), ⟨header, ⟨source, decoder, ended⟩, crc, size, verified⟩)

def verify (m : Member σ) : Except Fault ByteArray × Member σ :=
  match m.readTrailer with
  | (.error fault, m) => (.error fault, m)
  | (.ok trailer, m) =>
      let crc := UInt32.ofNat (Bytes.le trailer 0 4)
      let size := Bytes.le trailer 4 4
      if crc ≠ m.crc.value then
        (.error (.checksumMismatch .crc32 crc m.crc.value), m)
      else if size ≠ m.size % sizeModulus then
        (.error (.sizeMismatch size (m.size % sizeModulus)), m)
      else
        (.ok ByteArray.empty, { m with verified := true })

-- At most `n` decoded bytes; none once the end is reached and checked.
def read (m : Member σ) (n : Nat) : Except Fault ByteArray × Member σ :=
  if n = 0 ∨ m.verified then
    (.ok ByteArray.empty, m)
  else
    match m with
    | ⟨header, stream, crc, size, verified⟩ =>
        match stream.read n with
        | (.error fault, stream) => (.error fault, ⟨header, stream, crc, size, verified⟩)
        | (.ok bytes, stream) =>
            if bytes.size = 0 then verify ⟨header, stream, crc, size, verified⟩
            else (.ok bytes, ⟨header, stream, crc.update bytes, size + bytes.size, verified⟩)

instance : Source (Member σ) where
  read := read
  left m := m.stream.left

-- All bytes that are left.
def decompress (m : Member σ) : Except Fault ByteArray × Member σ :=
  Source.collect 0 m

end Member

-- Decode one whole member.
def decompress {σ : Type} [Source σ] (source : σ) : Except Fault ByteArray :=
  match Member.ofSource source with
  | (.error fault, _) => .error fault
  | (.ok m, _) => m.decompress.1

end Unpack.Gzip

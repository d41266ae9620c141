import Unpack.Checksum.Crc32
import Unpack.Deflate.DecodedStream
import Unpack.Source.RandomAccess
import Unpack.Zip.Entry

namespace Unpack.Zip

open Deflate (DecodedStream)

-- The compressed bytes of one entry, read from its own position in a store
-- that others use too. There is no store once the archive is closed.
structure EntrySource (σ : Type) where
  store : Option σ
  position : Nat
  remaining : Nat

namespace EntrySource

variable {σ : Type} [RandomAccess σ]

def read (s : EntrySource σ) (n : Nat) : Except Fault ByteArray × EntrySource σ :=
  if n = 0 ∨ s.remaining = 0 then
    (.ok ByteArray.empty, s)
  else
    match s with
    | ⟨none, position, remaining⟩ => (.error .archiveClosed, ⟨none, position, remaining⟩)
    | ⟨some store, position, remaining⟩ =>
        match RandomAccess.readAt store position (min remaining n) with
        | (.error fault, store) => (.error fault, ⟨some store, position, remaining⟩)
        | (.ok bytes, store) =>
            if bytes.size = 0 then
              (.error (.unexpectedEnd "ZIP entry data"), ⟨some store, position, remaining⟩)
            else
              (.ok bytes, ⟨some store, position + bytes.size, remaining - bytes.size⟩)

instance : Source (EntrySource σ) where
  read := read
  left s := s.remaining

end EntrySource

-- The data of an entry before the checks.
inductive EntryData (σ : Type) where
  | stored (source : EntrySource σ)
  | deflated (stream : DecodedStream (EntrySource σ))

namespace EntryData

variable {σ : Type}

def store : EntryData σ → Option σ
  | .stored source => source.store
  | .deflated stream => stream.source.store

-- The same body, reading from what the store has become.
def attach (store : Option σ) : EntryData σ → EntryData σ
  | .stored ⟨_, position, remaining⟩ => .stored ⟨store, position, remaining⟩
  | .deflated ⟨⟨_, position, remaining⟩, decoder, ended⟩ =>
      .deflated ⟨⟨store, position, remaining⟩, decoder, ended⟩

variable [RandomAccess σ]

def read (n : Nat) : EntryData σ → Except Fault ByteArray × EntryData σ
  | .stored source => let (answer, source) := source.read n; (answer, .stored source)
  | .deflated stream => let (answer, stream) := stream.read n; (answer, .deflated stream)

def left : EntryData σ → Nat
  | .stored source => source.remaining
  | .deflated stream => stream.left

end EntryData

-- The data of an entry. Size and checksum of all bytes handed out are checked
-- before the end is announced.
structure EntryStream (σ : Type) where
  body : EntryData σ
  name : String
  expectedCrc : UInt32
  expectedSize : Nat
  verifyCrc : Bool
  crc : Crc32
  size : Nat
  verified : Bool

namespace EntryStream

variable {σ : Type}

def attach (store : Option σ) (s : EntryStream σ) : EntryStream σ :=
  { s with body := s.body.attach store }

-- What the end of the data is checked for.
def flaw (s : EntryStream σ) : Option Fault :=
  if s.size ≠ s.expectedSize then
    some (.sizeMismatch s.expectedSize s.size)
  else if s.verifyCrc ∧ s.crc.value ≠ s.expectedCrc then
    some (.checksumMismatch .crc32 s.expectedCrc s.crc.value)
  else
    none

variable [RandomAccess σ]

-- At most `n` bytes; none once the end is reached and checked.
def read (s : EntryStream σ) (n : Nat) : Except Fault ByteArray × EntryStream σ :=
  if n = 0 ∨ s.verified then
    (.ok ByteArray.empty, s)
  else if s.body.store.isNone then
    (.error .archiveClosed, s)
  else
    match s with
    | ⟨body, name, expectedCrc, expectedSize, verifyCrc, crc, size, verified⟩ =>
        match body.read n with
        | (.error fault, body) =>
            (.error fault, ⟨body, name, expectedCrc, expectedSize, verifyCrc, crc, size, verified⟩)
        | (.ok bytes, body) =>
            if bytes.size = 0 then
              let s : EntryStream σ :=
                ⟨body, name, expectedCrc, expectedSize, verifyCrc, crc, size, verified⟩
              match s.flaw with
              | some fault => (.error fault, s)
              | none => (.ok bytes, { s with verified := true })
            else
              let size := size + bytes.size
              if expectedSize < size then
                (.error (.sizeMismatch expectedSize size),
                  ⟨body, name, expectedCrc, expectedSize, verifyCrc, crc, size, verified⟩)
              else
                (.ok bytes,
                  ⟨body, name, expectedCrc, expectedSize, verifyCrc, crc.update bytes, size,
                    verified⟩)

instance : Source (EntryStream σ) where
  read := read
  left s := s.body.left

end EntryStream

end Unpack.Zip

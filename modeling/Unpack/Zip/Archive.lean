import Unpack.Source.Collect
import Unpack.Zip.Directory
import Unpack.Zip.EntryStream

namespace Unpack.Zip

open Deflate (DecodedStream)

-- An archive opened for reading. All entry streams read from its one store,
-- which is gone once the archive is closed. `excess` counts bytes behind the
-- end of the archive.
structure Archive (σ : Type) where
  store : Option σ
  entries : Array Entry
  comment : String
  excess : Nat
  verifyCrc : Bool

namespace Archive

variable {σ : Type} [RandomAccess σ]

-- The archive that ends in the given way.
def ofEnding (store : σ) (ending : Ending) (verifyCrc : Bool) : Except Fault (Archive σ) :=
  match readDirectory store ending.record with
  | (.error fault, _) => .error fault
  | (.ok entries, store) =>
      .ok ⟨some store, entries, Text.ofUtf8 ending.comment, ending.excess, verifyCrc⟩

-- Read the central directory of a store.
def ofStore (store : σ) (verifyCrc : Bool) : Except Fault (Archive σ) :=
  match Ending.find store with
  | (.error fault, _) => .error fault
  | (.ok ending, store) => ofEnding store ending verifyCrc

-- The first entry of a name.
def entry? (a : Archive σ) (name : String) : Option Entry :=
  a.entries.find? (·.name = name)

def isClosed (a : Archive σ) : Bool :=
  a.store.isNone

def close (a : Archive σ) : Archive σ :=
  { a with store := none }

-- The local record of an entry must agree with the directory on the method
-- and on the length of the name.
def checkLocal (e : Entry) (found : LocalRecord) : Except Fault Unit :=
  if found.method ≠ e.method.id then
    .error (.headerMismatch e.name .method e.method.id.toNat found.method.toNat)
  else if found.name.size ≠ e.encodedName.size then
    .error (.headerMismatch e.name .nameLength e.encodedName.size found.name.size)
  else
    .ok ()

-- The body of an entry whose data begins at `position`.
def body (e : Entry) (store : σ) (position : Nat) : Except Fault (EntryData σ) :=
  let source : EntrySource σ := ⟨some store, position, e.compressedSize⟩
  match e.method with
  | .stored => .ok (.stored source)
  | .deflated => .ok (.deflated (.new source .raw))
  | .unknown id => .error (.unsupportedMethod (s!"ZIP method {id.toNat} (" ++ e.name ++ ")"))

-- A stream over the data of an entry.
def openStream (a : Archive σ) (e : Entry) : Except Fault (EntryStream σ) × Archive σ :=
  match a with
  | ⟨none, entries, comment, excess, verifyCrc⟩ =>
      (.error .archiveClosed, ⟨none, entries, comment, excess, verifyCrc⟩)
  | ⟨some store, entries, comment, excess, verifyCrc⟩ =>
      match LocalRecord.read (Cursor.mk store e.offset) with
      | (.error fault, cursor) =>
          (.error fault, ⟨some cursor.store, entries, comment, excess, verifyCrc⟩)
      | (.ok found, cursor) =>
          let stream : Except Fault (EntryStream σ) := do
            checkLocal e found
            let body ← body e cursor.store (e.offset + found.length)
            return ⟨body, e.name, e.crc, e.size, verifyCrc, .empty, 0, false⟩
          (stream, ⟨some cursor.store, entries, comment, excess, verifyCrc⟩)

-- A stream over the data of the first entry of a name.
def openNamed (a : Archive σ) (name : String) : Except Fault (EntryStream σ) × Archive σ :=
  match a.entry? name with
  | some e => a.openStream e
  | none => (.error (.entryNotFound name), a)

-- Read from a stream of this archive.
def read (a : Archive σ) (s : EntryStream σ) (n : Nat) :
    Except Fault ByteArray × EntryStream σ × Archive σ :=
  let (answer, s) := (s.attach a.store).read n
  (answer, s, { a with store := s.body.store })

-- A buffer for a whole entry begins with its size, up to this bound.
def maxBuffer : Nat := 1048576

-- All data of an entry.
def readWhole (a : Archive σ) (e : Entry) : Except Fault ByteArray × Archive σ :=
  match a.openStream e with
  | (.error fault, a) => (.error fault, a)
  | (.ok stream, a) =>
      let (answer, stream) := Source.collect (min e.size maxBuffer) stream
      (answer, { a with store := stream.body.store })

end Archive

end Unpack.Zip

import Unpack.Source.RandomAccess
import Unpack.Zip.Record

namespace Unpack.Zip

-- What stands at the end of an archive: the end record, the archive's
-- comment, and how many bytes follow that should not be there.
structure Ending where
  record : EndRecord
  comment : ByteArray
  excess : Nat

namespace Ending

-- The record at `position` of the last bytes of an archive, if one begins
-- there and the comment that it announces fits.
def ofPosition (tail : ByteArray) (position : Nat) : Option Ending :=
  let start := position + EndRecord.fixedSize
  if Bytes.le tail position 4 ≠ EndRecord.signature then
    none
  else
    match EndRecord.parse (tail.extract position start) with
    | .error _ => none
    | .ok record =>
        let stop := start + record.commentSize.toNat
        if stop ≤ tail.size then some ⟨record, tail.extract start stop, tail.size - stop⟩ else none

-- The last such record that begins at `position` or before.
def lastUpTo (tail : ByteArray) : (position : Nat) → Option Ending
  | 0 => ofPosition tail 0
  | position + 1 =>
      match ofPosition tail (position + 1) with
      | some ending => some ending
      | none => lastUpTo tail position

-- The longest comment and the record before it.
def span : Nat := 0xFFFF + EndRecord.fixedSize

variable {σ : Type} [RandomAccess σ]

-- Exactly `n` bytes at a position.
def readFrom (store : σ) (position n : Nat) : Except Fault ByteArray × σ :=
  match Source.readExactly "" (Cursor.mk store position) n with
  | (.ok bytes, cursor) => (.ok bytes, cursor.store)
  | (.error (.unexpectedEnd _), cursor) =>
      (.error (.io ⟨.unexpectedEof, "failed to fill whole buffer"⟩), cursor.store)
  | (.error fault, cursor) => (.error fault, cursor.store)

-- Without a comment the record is the very end. Else it is looked for in the
-- last bytes, backwards.
def find (store : σ) : Except Fault Ending × σ :=
  let size := RandomAccess.size store
  if size < EndRecord.fixedSize then
    (.error (.unexpectedEnd "ZIP end of central directory"), store)
  else
    match readFrom store (size - EndRecord.fixedSize) EndRecord.fixedSize with
    | (.error fault, store) => (.error fault, store)
    | (.ok fixed, store) =>
        match EndRecord.parse fixed with
        | .ok ⟨disk, directoryDisk, diskEntries, totalEntries, size, offset, 0⟩ =>
            (.ok ⟨⟨disk, directoryDisk, diskEntries, totalEntries, size, offset, 0⟩,
              ByteArray.empty, 0⟩, store)
        | _ =>
            let length := min span size
            match readFrom store (size - length) length with
            | (.error fault, store) => (.error fault, store)
            | (.ok tail, store) =>
                match lastUpTo tail (tail.size - EndRecord.fixedSize) with
                | some ending => (.ok ending, store)
                | none =>
                    (.error (.invalidMagic (Bytes.ofFields [(4, EndRecord.signature)])
                      (fixed.extract 0 4)), store)

end Ending

variable {σ : Type} [RandomAccess σ]

-- So many central records, one after the other.
def readRecords {σ : Type} [Source σ] : (count : Nat) → Array Entry → Reading σ (Array Entry)
  | 0, entries => pure entries
  | count + 1, entries => do
      let entry ← CentralRecord.readAll
      readRecords count (entries.push entry)

-- A part of a store, as a source of its own.
structure Section (σ : Type) where
  cursor : Cursor σ
  remaining : Nat

instance : Source (Section σ) where
  read s n :=
    if n = 0 ∨ s.remaining = 0 then
      (.ok ByteArray.empty, s)
    else
      match s.cursor.read (min n s.remaining) with
      | (.error fault, cursor) => (.error fault, ⟨cursor, s.remaining⟩)
      | (.ok bytes, cursor) => (.ok bytes, ⟨cursor, s.remaining - bytes.size⟩)
  left s := s.remaining

-- The entries of the central directory that an end record points to.
def readDirectory (store : σ) (record : EndRecord) : Except Fault (Array Entry) × σ :=
  if record.spansDisks then
    (.error (.invalidHeader .multiDisk), store)
  else
    let directory : Section σ :=
      ⟨⟨store, record.directoryOffset.toNat⟩, record.directorySize.toNat⟩
    match readRecords record.totalEntries.toNat #[] directory with
    | (answer, directory) => (answer, directory.cursor.store)

end Unpack.Zip

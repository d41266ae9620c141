import Unpack.Source.Basic

namespace Unpack

-- What a source brings at one time: bytes, the first `start` of which have
-- been read, an interruption, or a failure.
inductive Delivery where
  | chunk (bytes : ByteArray) (start : Nat)
  | interruption
  | failure (fault : Fault)
  deriving DecidableEq

-- A source that is known in advance.
structure Script where
  deliveries : List Delivery
  deriving DecidableEq

namespace Script

def ofBytes (bytes : ByteArray) : Script := ⟨[.chunk bytes 0]⟩

-- Bytes that have not been read.
def rest (s : Script) : ByteArray :=
  s.deliveries.foldl (fun out delivery =>
    match delivery with
    | .chunk bytes start => out ++ bytes.extract start bytes.size
    | _ => out) ByteArray.empty

-- One read stays within one chunk; an empty chunk makes it answer nothing.
def read (s : Script) (n : Nat) : Except Fault ByteArray × Script :=
  match s.deliveries with
  | [] => (.ok ByteArray.empty, s)
  | .interruption :: later => (.error (.io ⟨.interrupted, "operation interrupted"⟩), ⟨later⟩)
  | .failure fault :: later => (.error fault, ⟨later⟩)
  | .chunk bytes start :: later =>
      let stop := min (start + n) bytes.size
      if stop < bytes.size then (.ok (bytes.extract start stop), ⟨.chunk bytes stop :: later⟩)
      else (.ok (bytes.extract start stop), ⟨later⟩)

def left (s : Script) : Nat :=
  s.deliveries.foldl (fun sum delivery =>
    match delivery with
    | .chunk bytes start => sum + (bytes.size - start) + 1
    | _ => sum + 1) 0

instance : Source Script where
  read := read
  left := left

end Script

end Unpack

import Unpack.Source.Basic

namespace Unpack

-- Bytes that can be read from any position. A read answers with at most the
-- number of bytes asked for; no bytes mean that the end lies before them.
class RandomAccess (σ : Type) where
  size : σ → Nat
  readAt : σ → (position n : Nat) → Except Fault ByteArray × σ

instance : RandomAccess ByteArray where
  size := ByteArray.size
  readAt bytes position n := (.ok (bytes.extract position (position + n)), bytes)

-- What cannot be read at all answers every read with the reason.
instance : RandomAccess (Except IoFault ByteArray) where
  size
    | .ok bytes => bytes.size
    | .error _ => 0
  readAt
    | .ok bytes, position, n => (.ok (bytes.extract position (position + n)), .ok bytes)
    | .error cause, _, _ => (.error (.io cause), .error cause)

-- A source that reads on from a position.
structure Cursor (σ : Type) where
  store : σ
  position : Nat

namespace Cursor

variable {σ : Type} [RandomAccess σ]

def read (c : Cursor σ) (n : Nat) : Except Fault ByteArray × Cursor σ :=
  match RandomAccess.readAt c.store c.position n with
  | (.error fault, store) => (.error fault, ⟨store, c.position⟩)
  | (.ok bytes, store) => (.ok bytes, ⟨store, c.position + bytes.size⟩)

instance : Source (Cursor σ) where
  read := read
  left c := RandomAccess.size c.store - c.position

end Cursor

end Unpack

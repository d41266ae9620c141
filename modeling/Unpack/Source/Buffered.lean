import Unpack.Source.Basic

namespace Unpack

-- A source that is read in pieces of one size, which smaller reads share. The
-- first `taken` bytes of the piece have been handed out.
structure Buffered (σ : Type) where
  inner : σ
  piece : ByteArray
  taken : Nat

namespace Buffered

variable {σ : Type}

def pieceSize : Nat := 8192

def start (inner : σ) : Buffered σ := ⟨inner, ByteArray.empty, 0⟩

-- At most `n` bytes of the piece.
def serve (n : Nat) : Buffered σ → ByteArray × Buffered σ
  | ⟨inner, piece, taken⟩ =>
      let stop := min (taken + n) piece.size
      (piece.extract taken stop, ⟨inner, piece, stop⟩)

variable [Source σ]

-- The next piece is brought when the last one is used up. A read that is no
-- smaller than a piece then goes past the buffer.
def read (b : Buffered σ) (n : Nat) : Except Fault ByteArray × Buffered σ :=
  if b.taken < b.piece.size then
    let (bytes, b) := b.serve n
    (.ok bytes, b)
  else
    match Source.read b.inner (max n pieceSize) with
    | (.error fault, inner) => (.error fault, start inner)
    | (.ok bytes, inner) =>
        if pieceSize ≤ n then (.ok bytes, start inner)
        else
          let (bytes, b) := serve n ⟨inner, bytes, 0⟩
          (.ok bytes, b)

instance : Source (Buffered σ) where
  read := read
  left b := b.piece.size - b.taken + Source.left b.inner

end Buffered

end Unpack

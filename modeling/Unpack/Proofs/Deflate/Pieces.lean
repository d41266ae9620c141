import Mathlib.Data.List.Induction
import Unpack.Proofs.Deflate.Announcement

namespace Unpack

namespace Bits.Reader

end Bits.Reader

namespace Deflate

open Bits (Reader)
open Huffman (Table)

namespace Reference

theorem at_feed (history : List UInt8) (preset : Nat) (r : Reader) (piece : ByteArray) :
    State.at history preset (r.feed piece) =
      (State.at history preset r).feed (Bits.ofBytes piece.data.toList) := by
  simp only [State.at, State.feed, Reader.bits_feed, Reader.consumed_feed]

-- What is left to do does not change when more bytes arrive.
theorem LeadsAt.feed {α : Type} {p q : Decoding α} {r next : Reader} (h : LeadsAt p r q next)
    (piece : ByteArray) : LeadsAt p (r.feed piece) q (next.feed piece) := by
  intro history preset
  rw [at_feed, at_feed]
  refine (h history preset).feed _ ?_
  rw [Bits.length_ofBytes]
  omega

end Reference

namespace CodeLengths

open Reference

end CodeLengths

end Deflate

end Unpack

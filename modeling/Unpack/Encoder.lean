import Unpack.Fault

namespace Unpack

-- What an encoder does with data it holds back: keep it, hand it out up to
-- a byte boundary, or hand it out and end the stream.
inductive Flush where
  | keep
  | sync
  | finish
  deriving Repr, DecidableEq

-- An encoder takes data in pieces. Each call answers with the bytes that it
-- adds to the compressed stream; `leavings` are those that a call has added
-- before it failed.
class Encoder (κ : Type) where
  encode : κ → ByteArray → Flush → Except Fault ByteArray × κ
  leavings : κ → ByteArray := fun _ => ByteArray.empty
  reset : κ → κ
  isFinished : κ → Bool

-- Encode all data at once.
def Encoder.encodeAll {κ : Type} [Encoder κ] (c : κ) (data : ByteArray) :
    Except Fault ByteArray × κ :=
  encode c data .finish

end Unpack

import Unpack.Deflate.Decoder
import Unpack.Source.Basic

namespace Unpack.Deflate

-- The decoded bytes of a stream that is read from a source. `ended` tells
-- that the source has no more bytes.
structure DecodedStream (σ : Type) where
  source : σ
  decoder : Decoder
  ended : Bool

namespace DecodedStream

variable {σ : Type}

def new (source : σ) (settings : Settings) : DecodedStream σ :=
  ⟨source, .new settings, false⟩

-- Bytes asked of the source at once.
def readSize (s : DecodedStream σ) : Nat :=
  max s.decoder.settings.readSize 1

variable [Source σ]

-- Bring more input to the decoder.
def fill (s : DecodedStream σ) : Except Fault Unit × DecodedStream σ :=
  let size := s.readSize
  match s with
  | ⟨source, decoder, ended⟩ =>
      match Source.readOnce source size with
      | (.error fault, source) => (.error fault, ⟨source, decoder, ended⟩)
      | (.ok bytes, source) =>
          if bytes.size = 0 then (.ok (), ⟨source, decoder, true⟩)
          else (.ok (), ⟨source, decoder.feed bytes, ended⟩)

def readRounds (n : Nat) : (rounds : Nat) → DecodedStream σ →
    Except Fault ByteArray × DecodedStream σ
  | 0, s => (.ok ByteArray.empty, s)
  | rounds + 1, ⟨source, decoder, ended⟩ =>
      match decoder.read n with
      | (.error fault, decoder) => (.error fault, ⟨source, decoder, ended⟩)
      | (.ok bytes, decoder) =>
          if bytes.size ≠ 0 ∨ decoder.isFinished then
            (.ok bytes, ⟨source, decoder, ended⟩)
          else
            match decoder.awaitedDictionary with
            | some id => (.error (.dictionaryRequired id), ⟨source, decoder, ended⟩)
            | none =>
                if ended then
                  (.error (.unexpectedEnd "deflate stream"), ⟨source, decoder, ended⟩)
                else
                  match fill ⟨source, decoder, ended⟩ with
                  | (.error fault, s) => (.error fault, s)
                  | (.ok (), s) => readRounds n rounds s

-- At most `n` decoded bytes; none when the stream has ended.
def read (s : DecodedStream σ) (n : Nat) : Except Fault ByteArray × DecodedStream σ :=
  if n = 0 then (.ok ByteArray.empty, s)
  else readRounds n (Source.left s.source + 2) s

-- Decoded bytes that can still come, at most.
def left (s : DecodedStream σ) : Nat :=
  s.decoder.capacity + 258 * (8 * (s.readSize * Source.left s.source))

instance : Source (DecodedStream σ) where
  read := read
  left := left

end DecodedStream

end Unpack.Deflate

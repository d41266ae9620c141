import Unpack.Deflate.StoredBlocks
import Unpack.Gzip.Header
import Unpack.Sink

namespace Unpack.Gzip

-- A GZIP member in the making. `crc` and `size` cover the data written so far;
-- `pending` holds compressed bytes that the sink has not taken yet.
structure Writer (κ : Type) (ω : Type := ByteArray) where
  out : ω
  encoder : κ
  crc : Crc32
  size : Nat
  pending : ByteArray

namespace Writer

open Sink (settled)

variable {κ ω : Type} [Sink ω]

-- Write the header.
def startOn (out : ω) (header : Header) (encoder : κ) : Except Fault (Writer κ ω) := do
  let bytes ← header.toBytes
  let out ← settled (Sink.write out bytes)
  return ⟨out, encoder, .empty, 0, ByteArray.empty⟩

-- A member in memory.
def start (header : Header) (encoder : κ) : Except Fault (Writer κ) :=
  startOn ByteArray.empty header encoder

-- Hand compressed bytes to the sink. They are kept when it fails.
def deliver : Writer κ ω → Except Fault Unit × Writer κ ω
  | ⟨out, encoder, crc, size, pending⟩ =>
      if pending.size = 0 then
        (.ok (), ⟨out, encoder, crc, size, pending⟩)
      else
        match Sink.write out pending with
        | (.error fault, out) => (.error fault, ⟨out, encoder, crc, size, pending⟩)
        | (.ok (), out) => (.ok (), ⟨out, encoder, crc, size, ByteArray.empty⟩)

variable [Encoder κ]

-- Hand data to the encoder, and to the sink what it gives.
def push (data : ByteArray) (mode : Flush) : Writer κ ω → Except Fault Unit × Writer κ ω
  | ⟨out, encoder, crc, size, pending⟩ =>
      match Encoder.encode encoder data mode with
      | (.error fault, encoder) =>
          let pending := pending ++ Encoder.leavings encoder
          (.error fault, ⟨out, encoder, crc, size, pending⟩)
      | (.ok bytes, encoder) => deliver ⟨out, encoder, crc, size, pending ++ bytes⟩

-- Data counts from the moment it is offered, also when the encoder then
-- refuses it.
def write (w : Writer κ ω) (data : ByteArray) : Except Fault Unit × Writer κ ω :=
  push data .keep { w with crc := w.crc.update data, size := w.size + data.size }

def flush (w : Writer κ ω) : Except Fault Unit × Writer κ ω :=
  match push ByteArray.empty .sync w with
  | (.error fault, w) => (.error fault, w)
  | (.ok (), ⟨out, encoder, crc, size, pending⟩) =>
      let (answer, out) := Sink.flush out
      (answer, ⟨out, encoder, crc, size, pending⟩)

-- End the compressed stream and append checksum and size.
def finish (w : Writer κ ω) : Except Fault ω := do
  let w ← settled (push ByteArray.empty .finish w)
  let out ← settled (Sink.write w.out (Bytes.putLe ByteArray.empty 4 w.crc.value.toNat))
  let out ← settled (Sink.write out (Bytes.putLe ByteArray.empty 4 w.size))
  settled (Sink.flush out)

end Writer

-- One whole member of stored blocks.
def compress (header : Header) (data : ByteArray) : Except Fault ByteArray := do
  let w ← Writer.start header Deflate.StoredBlocks.empty
  match w.write data with
  | (.error fault, _) => throw fault
  | (.ok (), w) => w.finish

end Unpack.Gzip

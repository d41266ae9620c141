import Unpack.Bits.Writer
import Unpack.Encoder

namespace Unpack.Deflate

-- An encoder that makes a DEFLATE stream of stored blocks only. `pending`
-- holds bytes that no block has taken yet.
structure StoredBlocks where
  pending : ByteArray
  writer : Bits.Writer
  finished : Bool

namespace StoredBlocks

def empty : StoredBlocks := ⟨ByteArray.empty, .empty, false⟩

instance : Inhabited StoredBlocks := ⟨empty⟩

-- The largest stored block.
def maxBlock : Nat := 65535

-- Write a block with the first `length` pending bytes.
def putBlock (e : StoredBlocks) (length : Nat) (final : Bool) : StoredBlocks :=
  let header := ((e.writer.put final.toNat 1).put 0 2).putBytes
    (Bytes.putLe (Bytes.putLe ByteArray.empty 2 length) 2 (maxBlock - length))
  { e with
    writer := header.putBytes (e.pending.extract 0 length)
    pending := e.pending.extract length e.pending.size }

def putFullBlocks : (count : Nat) → StoredBlocks → StoredBlocks
  | 0, e => e
  | count + 1, e => putFullBlocks count (e.putBlock maxBlock false)

-- Full blocks that leave at least one byte behind, for a final block to take.
def fullBlocks (e : StoredBlocks) : Nat :=
  (e.pending.size - 1) / maxBlock

def flush (e : StoredBlocks) : Flush → StoredBlocks
  | .keep => e
  | .sync => e.putBlock e.pending.size false
  | .finish => { e.putBlock e.pending.size true with finished := true }

-- Take data and hand out finished blocks.
def encode (e : StoredBlocks) (data : ByteArray) (mode : Flush) :
    Except Fault ByteArray × StoredBlocks :=
  if e.finished then
    if data.size = 0 then (.ok ByteArray.empty, e)
    else (.error (.io ⟨.other, "stored stream already finished"⟩), e)
  else
    let e := { e with pending := e.pending ++ data }
    let e := (putFullBlocks e.fullBlocks e).flush mode
    let (bytes, writer) := e.writer.take
    (.ok bytes, { e with writer := writer })

instance : Encoder StoredBlocks where
  encode := encode
  reset _ := empty
  isFinished e := e.finished

end StoredBlocks

end Unpack.Deflate

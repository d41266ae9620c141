import Unpack.Bytes

namespace Unpack.Bits

-- The low `length` bits of `code` in opposite order.
def reverse : (length code : Nat) → Nat
  | 0, _ => 0
  | length + 1, code => (code % 2) <<< length + reverse length (code / 2)

-- Bits packed into bytes, the least significant bit of each byte first. The
-- low `held` bits of `buffer` are those that fill no byte yet.
structure Writer where
  bytes : ByteArray
  buffer : UInt64
  held : Nat
  written : Nat

namespace Writer

def empty : Writer := ⟨ByteArray.empty, 0, 0, 0⟩

instance : Inhabited Writer := ⟨empty⟩

-- Move whole bytes out of the buffer.
def spill (w : Writer) : Writer :=
  if 8 ≤ w.held then
    spill { w with
      bytes := w.bytes.push w.buffer.toUInt8
      buffer := w.buffer >>> 8
      held := w.held - 8 }
  else
    w
termination_by w.held

-- A word whose low `count` bits are set.
def mask (count : Nat) : UInt32 :=
  if count = 32 then 0xFFFFFFFF else (1 <<< UInt32.ofNat count) - 1

-- The low `count` bits of `value`, thirty-two of them at most.
def put (w : Writer) (value count : Nat) : Writer :=
  if count = 0 then
    w
  else
    let field := (UInt32.ofNat value &&& mask count).toUInt64
    spill { w with
      buffer := w.buffer ||| (field <<< UInt64.ofNat w.held)
      held := w.held + count
      written := w.written + count }

-- The low `length` bits of `code` in the order in which they are put.
def turned (code : UInt16) (length : Nat) : UInt32 :=
  (List.range length).foldl (fun number i =>
    number ||| (((code >>> UInt16.ofNat i) &&& 1).toUInt32 <<< UInt32.ofNat (length - 1 - i))) 0

-- The low `length` bits of a prefix code, most significant bit first.
def putCode (w : Writer) (code length : Nat) : Writer :=
  w.put (turned (UInt16.ofNat code) length).toNat length

-- Zero bits up to a byte boundary.
def align (w : Writer) : Writer :=
  if w.held % 8 = 0 then w else w.put 0 (8 - w.held % 8)

-- Whole bytes from a byte boundary on.
def putBytes (w : Writer) (data : ByteArray) : Writer :=
  let w := w.align
  { w with bytes := w.bytes ++ data, written := w.written + 8 * data.size }

-- The complete bytes so far; an unfinished byte stays.
def take (w : Writer) : ByteArray × Writer :=
  (w.bytes, { w with bytes := ByteArray.empty })

-- Everything not taken yet, filled up to a byte boundary.
def finish (w : Writer) : ByteArray :=
  w.align.bytes

end Writer

end Unpack.Bits

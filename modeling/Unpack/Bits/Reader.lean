import Unpack.Bytes

namespace Unpack.Bits

-- Bits taken from bytes that arrive in pieces, the least significant bit of
-- each byte first. `position` is the next bit and `fetched` the end of the
-- bytes looked at so far, both counted from the start of `bytes`; `released`
-- counts bytes that were consumed and let go.
structure Reader where
  bytes : ByteArray
  released : Nat
  position : Nat
  fetched : Nat
  position_le : position ≤ 8 * fetched
  fetched_le : fetched ≤ bytes.size

namespace Reader

def empty : Reader where
  bytes := ByteArray.empty
  released := 0
  position := 0
  fetched := 0
  position_le := by omega
  fetched_le := by omega

instance : Inhabited Reader := ⟨empty⟩

-- Forget the bytes that are consumed entirely.
def release (r : Reader) : Reader where
  bytes := r.bytes.extract (r.position / 8) r.bytes.size
  released := r.released + r.position / 8
  position := r.position % 8
  fetched := r.fetched - r.position / 8
  position_le := by have := r.position_le; omega
  fetched_le := by
    have := r.fetched_le
    simp only [ByteArray.size_extract]
    omega

-- Add bytes at the end. Consumed bytes are released once they make up half
-- of what is kept, so that each byte is moved a bounded number of times.
def feed (r : Reader) (data : ByteArray) : Reader :=
  let r := if r.bytes.size ≤ 2 * (r.position / 8) then r.release else r
  { bytes := r.bytes ++ data
    released := r.released
    position := r.position
    fetched := r.fetched
    position_le := r.position_le
    fetched_le := by
      have := r.fetched_le
      simp only [ByteArray.size_append]
      omega }

-- Bits that are left.
def available (r : Reader) : Nat :=
  8 * r.bytes.size - r.position

-- Whole bytes that are left.
def availableBytes (r : Reader) : Nat :=
  r.available / 8

-- Bits consumed since the beginning.
def consumed (r : Reader) : Nat :=
  8 * r.released + r.position

-- Whether every byte has been looked at.
def isStarved (r : Reader) : Bool :=
  r.bytes.size ≤ r.fetched

def isAligned (r : Reader) : Bool :=
  r.position % 8 = 0

-- Look at bytes until the next `n` bits are covered or no byte is left.
def fetch (r : Reader) (n : Nat) : Reader :=
  let stop := min r.bytes.size ((r.position + n + 7) / 8)
  if r.fetched < stop then
    { bytes := r.bytes
      released := r.released
      position := r.position
      fetched := max r.fetched stop
      position_le := by have := r.position_le; omega
      fetched_le := by have := r.fetched_le; omega }
  else
    r

-- The next `n` bits as a number, if so many are left.
def look (r : Reader) (n : Nat) : Option Nat :=
  if r.position + n ≤ 8 * r.bytes.size then
    let start := r.position / 8
    let stop := (r.position + n + 7) / 8
    some ((Bytes.le r.bytes start (stop - start) >>> (r.position % 8)) % (1 <<< n))
  else
    none

-- Consume `n` bits that have been looked at.
def drop (r : Reader) (n : Nat) : Reader where
  bytes := r.bytes
  released := r.released
  position := min (r.position + n) (8 * r.fetched)
  fetched := r.fetched
  position_le := by omega
  fetched_le := r.fetched_le

-- The next `n` bits without consuming them.
def peek (r : Reader) (n : Nat) : Option Nat × Reader :=
  (r.look n, r.fetch n)

-- The next `n` bits, consumed if so many are left.
def read (r : Reader) (n : Nat) : Option Nat × Reader :=
  match r.look n with
  | some value => (some value, (r.fetch n).drop n)
  | none => (none, r.fetch n)

-- Consume the rest of a byte that is partly consumed.
def align (r : Reader) : Reader where
  bytes := r.bytes
  released := r.released
  position := 8 * ((r.position + 7) / 8)
  fetched := r.fetched
  position_le := by have := r.position_le; omega
  fetched_le := r.fetched_le

-- The whole bytes that are left.
def rest (r : Reader) : ByteArray :=
  r.bytes.extract ((r.position + 7) / 8) r.bytes.size

-- At most `n` whole bytes from the next byte boundary on, consumed.
def take (r : Reader) (n : Nat) : ByteArray × Reader :=
  let start := (r.position + 7) / 8
  let stop := min (start + n) r.bytes.size
  (r.bytes.extract start stop,
    { bytes := r.bytes
      released := r.released
      position := 8 * stop
      fetched := max r.fetched stop
      position_le := by omega
      fetched_le := by have := r.fetched_le; omega })

theorem size_take_le (r : Reader) (n : Nat) : (r.take n).1.size ≤ n := by
  simp only [take, ByteArray.size_extract]
  omega

end Reader

end Unpack.Bits

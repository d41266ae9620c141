import Unpack.Bits.Reader
import Unpack.Fault

namespace Unpack

-- The newest bytes of a stream. `kept` ends with the `pending` bytes that
-- nobody has drained yet; before them stand older bytes that back-references
-- may still reach. Back-references reach 32768 bytes back, and no more bytes
-- than that may be pending.
structure Window where
  kept : ByteArray
  pending : Nat
  pending_le_size : pending ≤ kept.size
  pending_le : pending ≤ 32768

namespace Window

def span : Nat := 32768

-- Bytes that nobody waits for.
def settled (bytes : ByteArray) : Window := ⟨bytes, 0, Nat.zero_le _, Nat.zero_le _⟩

def empty : Window := settled ByteArray.empty

instance : Inhabited Window := ⟨empty⟩

def free (w : Window) : Nat :=
  span - w.pending

-- Bytes that a back-reference may reach.
def history (w : Window) : Nat :=
  min w.kept.size span

-- Let go of bytes that are out of reach, once there are as many as the span.
def trim (w : Window) : Window :=
  if h : 2 * span ≤ w.kept.size then
    { kept := w.kept.extract (w.kept.size - span) w.kept.size
      pending := w.pending
      pending_le_size := by
        have := w.pending_le
        simp only [ByteArray.size_extract, span] at *
        omega
      pending_le := w.pending_le }
  else
    w

theorem history_trim (w : Window) : w.trim.history = w.history := by
  unfold trim history
  split
  · simp only [ByteArray.size_extract, span] at *
    omega
  · rfl

theorem pending_trim (w : Window) : w.trim.pending = w.pending := by
  unfold trim
  split <;> rfl

-- Append bytes that fit.
def extend (w : Window) (data : ByteArray) (fits : w.pending + data.size ≤ span) : Window where
  kept := w.trim.kept ++ data
  pending := w.pending + data.size
  pending_le_size := by
    have := w.trim.pending_le_size
    simp only [ByteArray.size_append]
    rw [pending_trim] at this
    omega
  pending_le := fits

-- Append one byte.
def write (w : Window) (byte : UInt8) : Except Fault Unit × Window :=
  if fits : w.pending < span then
    (.ok (),
      { kept := w.trim.kept.push byte
        pending := w.pending + 1
        pending_le_size := by
          have := w.trim.pending_le_size
          simp only [ByteArray.size_push]
          rw [pending_trim] at this
          omega
        pending_le := fits })
  else
    (.error (.windowFull 1 w.free), w)

-- Append `length` bytes, each a copy of the one `distance` back. A distance
-- shorter than the length repeats bytes that were just written.
def echo (distance : Nat) (positive : 0 < distance) :
    (length : Nat) → (bytes : ByteArray) → distance ≤ bytes.size → ByteArray
  | 0, bytes, _ => bytes
  | length + 1, bytes, reached =>
      echo distance positive length (bytes.push bytes[bytes.size - distance])
        (by simp only [ByteArray.size_push]; omega)

theorem size_echo (distance : Nat) (positive : 0 < distance) (length : Nat) (bytes : ByteArray)
    (reached : distance ≤ bytes.size) :
    (echo distance positive length bytes reached).size = bytes.size + length := by
  induction length generalizing bytes with
  | zero => rfl
  | succ length ih =>
    rw [echo, ih, ByteArray.size_push]
    omega

-- Lengths are counted in 64 bits.
def countModulus : Nat := 0x10000000000000000

-- Append `length` bytes from `distance` back.
def copyBack (w : Window) (length distance : Nat) : Except Fault Unit × Window :=
  if countModulus ≤ w.pending + length then
    (.error .overflow, w)
  else if fits : w.pending + length ≤ span then
    if reached : 0 < distance ∧ distance ≤ w.history then
      (.ok (),
        { kept := echo distance reached.1 length w.trim.kept (by
            have h := reached.2
            rw [← history_trim, history] at h
            omega)
          pending := w.pending + length
          pending_le_size := by
            have := w.trim.pending_le_size
            rw [pending_trim] at this
            rw [size_echo]
            omega
          pending_le := fits })
    else
      (.error (.invalidDistance distance w.history), w)
  else
    (.error (.windowFull length w.free), w)

-- Append at most `length` bytes from the reader, as many as fit and as it has.
def copyFrom (w : Window) (r : Bits.Reader) (length : Nat) : Window × Bits.Reader :=
  let count := min length w.free
  (w.extend (r.take count).1 (by
      have := r.size_take_le count
      have := w.pending_le
      simp only [count, free, span] at *
      omega),
    (r.take count).2)

-- Start with a preset dictionary: history, but never output.
def preset (w : Window) (dictionary : ByteArray) : Except Fault Unit × Window :=
  if w.kept.size = 0 then
    (.ok (), settled (dictionary.extract (dictionary.size - span) dictionary.size))
  else
    (.error (.invalidHeader .lateDictionary), w)

-- The oldest pending bytes, at most `n`.
def drain (w : Window) (n : Nat) : ByteArray × Window :=
  let start := w.kept.size - w.pending
  let count := min n w.pending
  (w.kept.extract start (start + count),
    ⟨w.kept, w.pending - count, by have := w.pending_le_size; omega,
      by have := w.pending_le; omega⟩)

end Window

end Unpack

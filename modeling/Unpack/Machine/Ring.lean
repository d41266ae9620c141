import Unpack.Machine.Trap
import Unpack.Window

namespace Unpack.Machine

open Bits (Register)
open Window (span)

-- A window that keeps its bytes where they were written, in cells that are
-- used in turn. The next byte goes to `stop`; `filled` bytes before it are not
-- drained yet, and `history` bytes before it may be copied.
structure Ring where
  cells : Array UInt8
  stop : Nat
  filled : Nat
  history : Nat

namespace Ring

def empty : Ring := ⟨Array.replicate span 0, 0, 0, 0⟩

instance : Inhabited Ring := ⟨empty⟩

-- The place after the last one is the first.
def wrap (place : Nat) : Nat :=
  place % span

def free (ring : Ring) : Except Trap Nat :=
  minus span ring.filled

-- Count bytes that were written.
def advance (ring : Ring) (cells : Array UInt8) (stop count : Nat) : Ring where
  cells := cells
  stop := stop
  filled := ring.filled + count
  history := min (ring.history + count) span

def write (ring : Ring) (byte : UInt8) : Except Trap (Except Fault Unit × Ring) := do
  if ring.filled = span then
    return (.error (.windowFull 1 0), ring)
  let cells ← put ring.cells ring.stop byte
  return (.ok (), ring.advance cells (wrap (ring.stop + 1)) 1)

-- One byte at a time, each read after those before it were written. `next`
-- leads from one place to the following. The answer tells where it stopped.
def echo (next : Nat → Nat) (cells : Array UInt8) (source stop : Nat) :
    (length : Nat) → Except Trap (Array UInt8 × Nat)
  | 0 => .ok (cells, stop)
  | length + 1 => do
      let byte ← cell cells source
      let cells ← put cells stop byte
      echo next cells (next source) (next stop) length

-- Write `length` bytes from `source` on a second time. Only what would run
-- past the last cell has to wrap, and only what overlaps goes byte by byte.
def repeatCells (cells : Array UInt8) (source stop length distance : Nat) :
    Except Trap (Array UInt8 × Nat) := do
  let border ← minus span length
  if source ≤ border ∧ stop < border then
    if length ≤ distance then
      let bytes ← slice cells source length
      return (← paste cells stop bytes, stop + length)
    else
      echo (· + 1) cells source stop length
  else
    echo (fun place => wrap (place + 1)) cells source stop length

def copyBack (ring : Ring) (length distance : Nat) : Except Trap (Except Fault Unit × Ring) := do
  if Window.countModulus ≤ ring.filled + length then
    return (.error .overflow, ring)
  if span < ring.filled + length then
    return (.error (.windowFull length (← ring.free)), ring)
  if distance = 0 ∨ ring.history < distance then
    return (.error (.invalidDistance distance ring.history), ring)
  let source ← minus (ring.stop + span) distance
  let (cells, stop) ← repeatCells ring.cells (wrap source) ring.stop length distance
  return (.ok (), ring.advance cells stop length)

-- Write at most `length` bytes of a register, up to the last cell and then
-- from the first one on. The answer tells how many there were.
def copyFrom (ring : Ring) (g : Register) (length : Nat) :
    Except Trap (Nat × Ring × Register) := do
  let free ← ring.free
  let length := min (min length free) g.availableBytes
  let tail ← minus span ring.stop
  if tail < length then
    let (bytes, g) ← take g tail
    let cells ← paste ring.cells ring.stop bytes.data.toList
    if bytes.size = tail then
      let (others, g) ← take g (← minus length tail)
      let cells ← paste cells 0 others.data.toList
      let count := bytes.size + others.size
      return (count, ring.advance cells (wrap (ring.stop + count)) count, g)
    else
      return (bytes.size, ring.advance cells (wrap (ring.stop + bytes.size)) bytes.size, g)
  else
    let (bytes, g) ← take g length
    let cells ← paste ring.cells ring.stop bytes.data.toList
    return (bytes.size, ring.advance cells (wrap (ring.stop + bytes.size)) bytes.size, g)

-- Start with the end of a dictionary as history.
def preset (ring : Ring) (dictionary : ByteArray) : Except Trap (Except Fault Unit × Ring) := do
  if 0 < ring.filled ∨ 0 < ring.history then
    return (.error (.invalidHeader .lateDictionary), ring)
  let kept := dictionary.extract (dictionary.size - span) dictionary.size
  let cells ← paste ring.cells 0 kept.data.toList
  return (.ok (), { ring with cells, stop := wrap kept.size, history := kept.size })

-- The oldest bytes that are not drained, at most `n`, up to the last cell and
-- then from the first one on.
def drain (ring : Ring) (n : Nat) : Except Trap (ByteArray × Ring) := do
  let count := min n ring.filled
  let start ← minus (ring.stop + span) ring.filled
  let front := min count (← minus span (wrap start))
  let bytes ← slice ring.cells (wrap start) front
  let others ← slice ring.cells 0 (← minus count front)
  return (⟨(bytes ++ others).toArray⟩, { ring with filled := ← minus ring.filled count })

-- Forget everything that was written. The cells keep it.
def reset (ring : Ring) : Ring :=
  { ring with stop := 0, filled := 0, history := 0 }

end Ring

end Unpack.Machine

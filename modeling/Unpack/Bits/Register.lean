import Unpack.Bytes

namespace Unpack.Bits

-- Bits that pass through a machine word on their way out of the bytes. The
-- low `held` bits of `buffer` come first, then the bytes from `next` on.
structure Register where
  input : ByteArray
  next : Nat
  buffer : UInt32
  held : Nat
  consumed : Nat
  next_le : next ≤ input.size

namespace Register

def empty : Register where
  input := ByteArray.empty
  next := 0
  buffer := 0
  held := 0
  consumed := 0
  next_le := Nat.le_refl 0

instance : Inhabited Register := ⟨empty⟩

-- Let go of the bytes that were moved.
def compact (g : Register) : Register :=
  { g with
    input := g.input.extract g.next g.input.size
    next := 0
    next_le := Nat.zero_le _ }

def append (g : Register) (data : ByteArray) : Register :=
  { g with
    input := g.input ++ data
    next_le := by
      have := g.next_le
      simp only [ByteArray.size_append]
      omega }

-- Add bytes at the end. Moved bytes are let go of once they make up half of
-- what is kept.
def feed (g : Register) (data : ByteArray) : Register :=
  if 0 < g.next ∧ g.input.size - g.next ≤ g.next then
    g.compact.append data
  else
    g.append data

-- Move one byte into the buffer, above the bits held there.
def load (g : Register) (inside : g.next < g.input.size) : Register :=
  { g with
    next := g.next + 1
    buffer := g.buffer ||| (g.input[g.next].toUInt32 <<< UInt32.ofNat g.held)
    held := g.held + 8
    next_le := inside }

-- Move bytes until `n` bits are held, and tell whether so many were left.
def fill (g : Register) (n : Nat) : Bool × Register :=
  if g.held < n then
    if inside : g.next < g.input.size then
      (g.load inside).fill n
    else
      (false, g)
  else
    (true, g)
termination_by g.input.size - g.next
decreasing_by
  simp only [load]
  omega

-- The low `n` bits of the buffer.
def low (g : Register) (n : Nat) : Nat :=
  (g.buffer &&& ((1 <<< UInt32.ofNat n) - 1)).toNat

-- The next `n` bits without consuming them.
def peek (g : Register) (n : Nat) : Option Nat × Register :=
  match g.fill n with
  | (true, g) => (some (g.low n), g)
  | (false, g) => (none, g)

-- Consume `n` of the bits held.
def drop (g : Register) (n : Nat) : Register :=
  { g with
    buffer := g.buffer >>> UInt32.ofNat n
    held := g.held - n
    consumed := g.consumed + n }

-- The next `n` bits, consumed if so many are left.
def read (g : Register) (n : Nat) : Option Nat × Register :=
  match g.peek n with
  | (some value, g) => (some value, g.drop n)
  | (none, g) => (none, g)

-- Bits that are left.
def available (g : Register) : Nat :=
  g.held + 8 * (g.input.size - g.next)

-- Whole bytes that are left.
def availableBytes (g : Register) : Nat :=
  (g.input.size - g.next) + g.held / 8

-- Whether every byte was moved.
def isStarved (g : Register) : Bool :=
  g.input.size ≤ g.next

def isAligned (g : Register) : Bool :=
  g.held % 8 = 0

-- Consume the rest of a byte that is partly consumed.
def align (g : Register) : Register :=
  g.drop (g.held % 8)

-- At most `n` whole bytes of the buffer, consumed, after those in `out`.
def shed (g : Register) (out : ByteArray) : (n : Nat) → ByteArray × Register
  | 0 => (out, g)
  | n + 1 =>
      if 8 ≤ g.held then
        (g.drop 8).shed (out.push g.buffer.toUInt8) n
      else
        (out, g)

-- Consume `n` of the bytes that were not moved.
def skip (g : Register) (n : Nat) (inside : g.next + n ≤ g.input.size) : Register :=
  { g with
    next := g.next + n
    consumed := g.consumed + 8 * n
    next_le := inside }

-- At most `n` whole bytes from a byte boundary on, consumed: those of the
-- buffer first, then those that were not moved.
def take (g : Register) (n : Nat) : ByteArray × Register :=
  let (out, g) := g.shed ByteArray.empty n
  let direct := min (n - out.size) (g.input.size - g.next)
  (out ++ g.input.extract g.next (g.next + direct),
    g.skip direct (by have := g.next_le; omega))

-- The whole bytes that are left.
def rest (g : Register) : ByteArray :=
  let aligned := g.buffer >>> UInt32.ofNat (g.held % 8)
  let out := (List.range (g.held / 8)).foldl
    (fun out i => out.push (aligned >>> UInt32.ofNat (8 * i)).toUInt8) ByteArray.empty
  out ++ g.input.extract g.next g.input.size

end Register

end Unpack.Bits

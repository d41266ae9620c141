import Unpack.Bits.Writer
import Unpack.Huffman.Table
import Unpack.Machine.Trap

namespace Unpack.Machine

open Bits (Register)
open Huffman (maxLength)
open Huffman.Table (Layout rootBits codeSpace)

-- A prefix code in one array of numbers. The first 512 are looked up with the
-- next nine bits. A number is either a symbol times 16 and the length of its
-- code, or minus 16 times the start of further numbers and the most bits that
-- these are looked up with. Zero stands where no code leads.
structure FlatTable where
  entries : Array Int
  longest : Nat

namespace FlatTable

def symbolEntry (symbol length : Nat) : Int :=
  16 * symbol + length

def startEntry (start width : Nat) : Int :=
  width - 16 * start

-- The low four bits of an entry.
def low (entry : Int) : Nat :=
  (entry % 16).toNat

-- Why the building of a table ends early. It is the lengths that are at fault
-- where they make no code or take a number out of its range.
inductive Halt where
  | fault (cause : Fault)
  | trap (cause : Trap)

abbrev Building := Except Halt

instance : MonadLift (Except Fault) Building := ⟨Except.mapError .fault⟩

instance : MonadLift (Except Trap) Building := ⟨Except.mapError .trap⟩

def outcome {α : Type} : Building α → Except Trap (Except Fault α)
  | .ok result => .ok (.ok result)
  | .error (.fault cause) => .ok (.error cause)
  | .error (.trap cause) => .error cause

-- Count the codes of each length.
def tally (counts : Array UInt32) (longest : Nat) :
    List (Nat × Nat) → Building (Array UInt32 × Nat)
  | [] => return (counts, longest)
  | (length, symbol) :: lengths => do
      if maxLength < length then
        throw (.fault (.invalidTable (.lengthTooLong length symbol)))
      else if 0 < length then
        let counts ← put counts length (← Checked.add (← cell counts length) 1)
        tally counts (max longest length) lengths
      else
        tally counts longest lengths

-- Note where the codes of a length begin, and make room for them.
def layOut (counts : Array UInt32) (state : Array UInt32 × Layout) (length : Nat) :
    Building (Array UInt32 × Layout) := do
  let (next, layout) := state
  let next ← put next length layout.points
  return (next, ← layout.add length (← cell counts length))

-- Whether at most one code was counted, and then one of one bit.
def isSingle (counts : Array UInt32) : Building Bool := do
  let used ← (counts.toList.foldlM Checked.add 0 : Except Fault UInt32)
  return used = 0 ∨ used = 1 ∧ (← cell counts 1) = 1

-- Give `count` stems, from `points` on, room for codes of at most `width` bits.
def pointStems (entries : Array Int) (free width points : Nat) :
    (count : Nat) → Except Trap (Array Int × Nat)
  | 0 => .ok (entries, free)
  | count + 1 => do
      let entries ← put entries (Bits.reverse 16 points) (startEntry free width)
      pointStems entries (free + 1 <<< (width - rootBits)) width (points + 128) count

-- The stems that codes of a length end. Longer codes come first, so that what
-- they are looked up in begins at a multiple of its size.
def pointLevel (counts : Array UInt32) (state : Array Int × Nat × UInt32) (length : Nat) :
    Building (Array Int × Nat × UInt32) := do
  let (entries, free, points) := state
  let before ← Checked.sub points ((← cell counts length) <<< UInt32.ofNat (16 - length))
  let stop := (Layout.stem points).toNat
  let start := (Layout.stem before).toNat
  let (entries, free) ← pointStems entries free length start ((stop - start + 127) / 128)
  return (entries, free, before)

-- Set every entry below `limit` that ends in the given code. `place` leads from
-- looked-up bits to their entry.
def spread (place : Nat → Nat) (entry : Int) (length limit : Nat) (entries : Array Int)
    (code : Nat) : Except Trap (Array Int) := do
  if code < limit then
    let entries ← put entries (place code) entry
    spread place entry length limit entries (code + 1 <<< length)
  else
    return entries
termination_by limit - code
decreasing_by
  have := Nat.two_pow_pos length
  rw [Nat.one_shiftLeft]
  omega

-- Set all entries that end in the code of a symbol, read backwards.
def place (entries : Array Int) (symbol length code : Nat) : Except Trap (Array Int) := do
  let entry := symbolEntry symbol length
  if length ≤ rootBits then
    spread id entry length 512 entries code
  else
    let pointer ← cell entries (code % 512)
    let start ← natural (-(pointer / 16))
    spread (fun code => start + code / 512) entry length (1 <<< low pointer) entries code

-- Enter a symbol under the next code of its length.
def enter (state : Array Int × Array UInt32) (item : Nat × Nat) :
    Building (Array Int × Array UInt32) := do
  let (entries, next) := state
  let (length, symbol) := item
  if length = 0 then
    return state
  let points ← cell next length
  let entries ← place entries symbol length (Bits.reverse 16 points.toNat)
  return (entries, ← put next length (← Checked.add points (1 <<< UInt32.ofNat (16 - length))))

-- The table of a code whose lengths are counted and laid out.
def fill (lengths : List Nat) (counts next : Array UInt32) (layout : Layout) :
    Building (Array Int) := do
  let entries := Array.replicate layout.slots 0
  let levels := (List.range' (rootBits + 1) (maxLength - rootBits)).reverse
  let (entries, _) ← levels.foldlM (pointLevel counts) (entries, 512, layout.points)
  let (entries, _) ← lengths.zipIdx.foldlM enter (entries, next)
  return entries

def build (lengths : List Nat) (mayDegenerate : Bool) : Except Trap (Except Fault FlatTable) :=
  outcome do
    let (counts, longest) ← tally (Array.replicate (maxLength + 1) 0) 0 lengths.zipIdx
    let next := Array.replicate (maxLength + 1) 0
    let (next, layout) ← (List.range' 1 maxLength).foldlM (layOut counts) (next, Layout.start)
    let single := mayDegenerate && (← isSingle counts)
    let used := layout.points.toNat
    if used = codeSpace ∨ single then
      return ⟨← fill lengths counts next layout, longest⟩
    else if codeSpace < used then
      throw (.fault (.invalidTable (.overSubscribed used)))
    else
      throw (.fault (.invalidTable (.incomplete used)))

-- Consume the code of an entry.
def takeEntry (g : Register) (entry : Int) :
    Except Trap (Except Fault (Option Nat) × Register) := do
  if low entry = 0 then
    return (.error (.invalidCode g.consumed), g)
  return (.ok (some ((← natural (entry / 16)) % 65536)), ← drop g (low entry))

-- Only `count` bits are known, so an entry counts only if its code is no longer.
def takeLast (g : Register) (entry : Int) (count : Nat) :
    Except Trap (Except Fault (Option Nat) × Register) := do
  if low entry = 0 ∨ count < low entry then
    return (.ok none, g)
  return (.ok (some ((← natural (entry / 16)) % 65536)), ← drop g (low entry))

def symbol (t : FlatTable) (g : Register) :
    Except Trap (Except Fault (Option Nat) × Register) := do
  match ← peek g rootBits with
  | (some bits, g) =>
      let entry ← cell t.entries bits
      if 0 ≤ entry then
        takeEntry g entry
      else
        let start ← natural (-(entry / 16))
        match ← peek g (low entry) with
        | (some bits, g) => takeEntry g (← cell t.entries (start + bits / 512))
        | (none, g) =>
            let count := g.available % 256
            let (bits, g) ← peek g count
            takeLast g (← cell t.entries (start + bits.getD 0 / 512)) count
  | (none, g) =>
      let count := g.available % 256
      let (bits, g) ← peek g count
      let entry ← cell t.entries (bits.getD 0)
      if entry < 0 then
        return (.ok none, g)
      takeLast g entry count

end FlatTable

end Unpack.Machine

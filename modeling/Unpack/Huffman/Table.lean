import Unpack.Bits.Reader
import Unpack.Fault
import Unpack.Huffman.Tree

namespace Unpack.Huffman

-- A prefix code prepared for decoding: `root` answers at once for the next
-- nine bits.
structure Table where
  tree : Tree
  root : Vector Slot 512
  longest : Nat

namespace Table

-- Bits that the root resolves.
def rootBits : Nat := 9

def ofTree (tree : Tree) (longest : Nat) : Table where
  tree := tree
  root := Vector.ofFn fun stem : Fin 512 => tree.slot rootBits stem.val 0
  longest := longest

-- All code points, seen as codes of 16 bits.
def codeSpace : Nat := 65536

-- The code points that begin with a code of `length` bits.
def points (length : Nat) : Nat :=
  if length = 0 then 0 else 1 <<< (16 - length)

-- Room for codes, shorter ones first: the points that they take up, as a
-- 32-bit number, and the slots of the root and of the tables below it, in which
-- the codes that the root does not resolve are looked up. What is laid out need
-- not fit, so that points may overflow, and stems may go back to the first.
structure Layout where
  points : UInt32
  slots : Nat
  deriving DecidableEq

namespace Layout

def start : Layout := ⟨0, 1 <<< rootBits⟩

-- The bits of a point that the root resolves, with one bit in front of them.
def stem (points : UInt32) : UInt32 :=
  points &&& 0x1FF80

-- Room for `count` more codes of one length.
def add (l : Layout) (length : Nat) (count : UInt32) : Except Fault Layout := do
  let unused := UInt32.ofNat (16 - length)
  let points ← Checked.add l.points (count <<< unused)
  if rootBits < length then
    let room ← Checked.sub (stem points) (stem l.points)
    return ⟨points, l.slots + (room >>> unused).toNat⟩
  else
    return ⟨points, l.slots⟩

-- Room for all codes up to a length.
def upTo (lengths : List Nat) : (length : Nat) → Except Fault Layout
  | 0 => return start
  | length + 1 => do
      let layout ← upTo lengths length
      layout.add (length + 1) (UInt32.ofNat (Tree.population lengths (length + 1)))

end Layout

-- The points that all codes take up.
def usedPoints (lengths : List Nat) : Except Fault Nat := do
  let layout ← Layout.upTo lengths maxLength
  return layout.points.toNat

-- Whether at most one symbol has a code, and then of one bit.
def isDegenerate (lengths : List Nat) : Bool :=
  match lengths.filter (· ≠ 0) with
  | [] => true
  | [length] => length = 1
  | _ => false

-- The first length beyond the maximum, with its symbol.
def excess? (lengths : List Nat) : Option (Nat × Nat) :=
  lengths.zipIdx.find? fun entry => maxLength < entry.1

def build (lengths : List Nat) (mayDegenerate : Bool) : Except Fault Table :=
  match excess? lengths with
  | some (length, symbol) => .error (.invalidTable (.lengthTooLong length symbol))
  | none => do
      let used ← usedPoints lengths
      if used = codeSpace ∨ (mayDegenerate ∧ isDegenerate lengths) then
        -- The codes of each length are counted on in 32 bits.
        if (lengths.map points).foldr (· + ·) 0 < 0x100000000 then
          return ofTree (Tree.ofLengths lengths) (lengths.foldl max 0)
        else
          throw .overflow
      else if codeSpace < used then
        throw (.invalidTable (.overSubscribed used))
      else
        throw (.invalidTable (.incomplete used))

-- A code that fills the code space exactly.
def ofLengths (lengths : List Nat) : Except Fault Table :=
  build lengths false

-- A code for distances may also have no symbol or a single one of one bit.
def ofDistanceLengths (lengths : List Nat) : Except Fault Table :=
  build lengths true

-- Consume the code of a leaf; a full look that ends anywhere else has met
-- bits that no code begins with.
def take (r : Bits.Reader) : Slot → Except Fault (Option Nat) × Bits.Reader
  | .leaf symbol length => (.ok (some symbol), r.drop length)
  | _ => (.error (.invalidCode r.consumed), r)

-- Decode with all the bits there are, too few for a full look. More bits may
-- still decide what these do not.
def takeLast (t : Table) (r : Bits.Reader) : Except Fault (Option Nat) × Bits.Reader :=
  let count := r.available
  match t.tree.slot count ((r.look count).getD 0) 0 with
  | .leaf symbol length => (.ok (some symbol), r.drop length)
  | _ => (.ok none, r)

-- Decode the next symbol. When the bits end inside a code the answer is
-- `none`, nothing is consumed, and the call can be repeated with more bits.
def symbol (t : Table) (r : Bits.Reader) : Except Fault (Option Nat) × Bits.Reader :=
  let r := r.fetch rootBits
  match r.look rootBits with
  | none => t.takeLast r
  | some stem =>
      have : stem % 512 < 512 := Nat.mod_lt _ (by decide)
      match t.root[stem % 512] with
      | .branch width tree =>
          let r := r.fetch width
          match r.look width with
          | none => t.takeLast r
          | some bits => take r (tree.slot (width - rootBits) (bits >>> rootBits) rootBits)
      | slot => take r slot

end Table

end Unpack.Huffman

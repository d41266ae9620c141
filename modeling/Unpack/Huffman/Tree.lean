namespace Unpack.Huffman

-- The longest code that DEFLATE allows.
def maxLength : Nat := 15

-- A prefix code as a binary tree. The bits of a code lead from the root to
-- the leaf of its symbol; no code leads to a vacant place.
inductive Tree where
  | vacant
  | leaf (symbol length : Nat)
  | node (zero one : Tree)
  deriving Repr, DecidableEq

-- What a bounded number of bits leads to: nothing, a symbol with the length
-- of its code, or a place with longer codes below it, of `width` bits at most.
inductive Slot where
  | vacant
  | leaf (symbol length : Nat)
  | branch (width : Nat) (tree : Tree)
  deriving Repr, DecidableEq

namespace Tree

def height : Tree → Nat
  | .node zero one => max zero.height one.height + 1
  | _ => 0

-- Follow at most `count` bits of `bits`, the least significant first, from a
-- place `depth` bits below the root.
def slot : Tree → (count bits depth : Nat) → Slot
  | .vacant, _, _, _ => .vacant
  | .leaf symbol length, _, _, _ => .leaf symbol length
  | .node zero one, 0, _, depth => .branch (depth + (node zero one).height) (.node zero one)
  | .node zero one, count + 1, bits, depth =>
      if bits % 2 = 0 then zero.slot count (bits / 2) (depth + 1)
      else one.slot count (bits / 2) (depth + 1)

-- The two places below a place. A leaf takes up both.
def halves : Tree → Tree × Tree
  | .node zero one => (zero, one)
  | tree => (tree, tree)

-- Put a leaf where the low `count` bits of `code` lead, the most significant
-- first. What stood there before is gone.
def insert (leaf : Tree) (code : Nat) : (count : Nat) → Tree → Tree
  | 0, _ => leaf
  | count + 1, tree =>
      let (zero, one) := tree.halves
      if code.testBit count then .node zero (insert leaf code count one)
      else .node (insert leaf code count zero) one

-- How many symbols have a code of each length. Length zero means no code.
def population (lengths : List Nat) (length : Nat) : Nat :=
  if length = 0 then 0 else lengths.count length

-- The first code of a length in the canonical order: the codes of one length
-- are consecutive and follow all shorter ones.
def firstCode (lengths : List Nat) : (length : Nat) → Nat
  | 0 => 0
  | length + 1 => 2 * (firstCode lengths length + population lengths length)

-- Symbols are 16-bit numbers and counted on from zero after the last.
def symbolModulus : Nat := 65536

-- Give a symbol the next code of its length.
def place (state : Array Nat × Tree) (entry : Nat × Nat) : Array Nat × Tree :=
  let (next, tree) := state
  let (length, symbol) := entry
  if length = 0 then state
  else
    (next.modify length (· + 1),
      insert (.leaf (symbol % symbolModulus) length) (next.getD length 0) length tree)

-- The canonical prefix code with the given lengths, zero for symbols without
-- a code.
def ofLengths (lengths : List Nat) : Tree :=
  let next := (Array.range (maxLength + 1)).map (firstCode lengths)
  (lengths.zipIdx.foldl place (next, .vacant)).2

end Tree

end Unpack.Huffman

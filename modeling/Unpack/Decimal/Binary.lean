namespace Unpack.Decimal

-- The number `significand * 2 ^ exponent`. The gap to the next smaller number
-- is half as wide as the gap to the next larger one if `narrowBelow`.
structure Binary where
  significand : Nat
  exponent : Int
  narrowBelow : Bool
  deriving Repr, DecidableEq

namespace Binary

-- The first significand of full length, which IEEE 754 leaves implicit.
def hidden : Nat := 1 <<< 52

-- The exponent of the smallest numbers.
def least : Int := -1074

-- The magnitude of a finite number, from its IEEE 754 bits.
def ofBits (bits : UInt64) : Option Binary :=
  let fraction := bits.toNat % hidden
  let biased := bits.toNat / hidden % 2048
  if biased = 2047 then none
  else if biased = 0 then some ⟨fraction, least, false⟩
  else some ⟨hidden + fraction, least + (biased - 1 : Nat), fraction = 0 ∧ 1 < biased⟩

end Binary

-- Powers of ten.
def tenTo : Nat → Nat := Nat.pow 10

def isNegative (x : Float) : Bool :=
  x.toBits.toNat.testBit 63

end Unpack.Decimal

import Unpack.Decimal.Binary

namespace Unpack.Decimal

-- The number `coefficient * 10 ^ exponent`.
structure Scaled where
  coefficient : Nat
  exponent : Int
  deriving Repr, DecidableEq

-- A binary number and the multiples of `10 ^ exponent`, all in one unit in
-- which everything compared is whole. `quarter` is a quarter of the gap above
-- the number, `step` is `10 ^ exponent`.
structure Grid where
  number : Binary
  quarter : Nat
  step : Nat
  deriving Repr, DecidableEq

namespace Grid

def of (number : Binary) (exponent : Int) : Grid :=
  let binary := number.exponent - 2
  { number := number
    quarter := tenTo (-exponent).toNat <<< binary.toNat
    step := tenTo exponent.toNat <<< (-binary).toNat }

def value (g : Grid) : Nat :=
  4 * g.number.significand * g.quarter

-- The ends of the interval of reals whose nearest binary number is this one.
def low (g : Grid) : Nat :=
  g.value - (if g.number.narrowBelow then 1 else 2) * g.quarter

def high (g : Grid) : Nat :=
  g.value + 2 * g.quarter

-- Whether the multiple `n` of the step reads back as the number. The ends of
-- the interval do if the significand is even.
def readsBack (g : Grid) (n : Nat) : Bool :=
  if g.number.significand % 2 = 0 then g.low ≤ n * g.step ∧ n * g.step ≤ g.high
  else g.low < n * g.step ∧ n * g.step < g.high

-- The largest multiple that is not above the number.
def below (g : Grid) : Nat :=
  g.value / g.step

-- Of `below` and the multiple after it the one nearer to the number, the even
-- one of two that are equally near.
def nearest (g : Grid) : Nat :=
  let down := g.value - g.below * g.step
  let up := (g.below + 1) * g.step - g.value
  if down < up ∨ down = up ∧ g.below % 2 = 0 then g.below else g.below + 1

-- The multiple nearest to the number of those that read back, if any does.
def hit (g : Grid) : Option Nat :=
  if g.readsBack g.nearest then some g.nearest
  else if g.readsBack g.below then some g.below
  else if g.readsBack (g.below + 1) then some (g.below + 1)
  else none

end Grid

-- The hit on the first grid that has one, among so many grids from the given
-- exponent downwards.
def firstHit (number : Binary) : (grids : Nat) → (exponent : Int) → Scaled
  | 0, exponent => ⟨(Grid.of number exponent).nearest, exponent⟩
  | grids + 1, exponent =>
      match (Grid.of number exponent).hit with
      | some coefficient => ⟨coefficient, exponent⟩
      | none => firstHit number grids (exponent - 1)

-- An exponent for which no multiple but zero is below the number.
def ceiling (number : Binary) : Int :=
  (number.exponent + 53) * 30103 / 100000 + 2

-- Steps down from the ceiling to a grid finer than the gap above the number.
def gridCount : Nat := 20

-- The decimal number with the fewest digits that reads back, the nearest if
-- there are several.
def shortest (number : Binary) : Scaled :=
  firstHit number gridCount (ceiling number)

end Unpack.Decimal

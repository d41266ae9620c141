import Unpack.Decimal.Binary
import Unpack.Text.Numeral

namespace Unpack.Decimal

-- The quotient, rounded to the nearest whole number. A half goes to the even
-- neighbour.
def roundedQuotient (numerator denominator : Nat) : Nat :=
  let quotient := numerator / denominator
  let rest := 2 * (numerator % denominator)
  if rest < denominator ∨ rest = denominator ∧ quotient % 2 = 0 then quotient else quotient + 1

-- The number in units of `10 ^ -places`, rounded.
def Binary.units (number : Binary) (places : Nat) : Nat :=
  roundedQuotient ((number.significand * tenTo places) <<< number.exponent.toNat)
    (1 <<< (-number.exponent).toNat)

-- A number with a fixed positive count of digits after the point. The sign
-- stays when the digits are all zero.
def fixed (places : Nat) (x : Float) : String :=
  let sign := if isNegative x then "-" else ""
  match Binary.ofBits x.toBits with
  | none => if x.isNaN then "NaN" else sign ++ "inf"
  | some number =>
      let units := number.units places
      sign ++ toString (units / tenTo places) ++ "."
        ++ Text.decimal places (units % tenTo places)

end Unpack.Decimal

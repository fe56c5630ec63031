import InteriorPoint.Decimal.Binary

/-!
# Decimals of a fixed number of digits

The decimal with a given number of digits that is nearest to a number; of two that are equally
near, the one whose last digit is even.
-/

namespace InteriorPoint

namespace Decimal

/-- The quotient of two whole numbers rounded to the nearest one, a half to the even neighbour. -/
def roundQuotient (num den : Nat) : Nat :=
  let q := num / den
  let excess := 2 * (num % den)
  if excess < den then q
  else if den < excess then q + 1
  else if q % 2 = 0 then q
  else q + 1

/-- **The magnitude rounded to `k` digits.** Rounding up to a power of ten moves the first
digit. -/
def rounded (k : Nat) (x : Binary) : Digits :=
  if x.mantissa = 0 then { coefficient := 0, exponent := 0 }
  else
    let e := x.decimalExponent
    let t : Int := e - k + 1
    let c := roundQuotient (x.numerator t) (x.denominator t)
    if c = Nat.pow 10 k then { coefficient := Nat.pow 10 (k - 1), exponent := e + 1 }
    else { coefficient := c, exponent := e }

end Decimal

end InteriorPoint

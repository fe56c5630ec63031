import InteriorPoint.Decimal.Binary

/-!
# Shortest decimals

The shortest decimal that reads back as the same double-precision number: the one with the fewest
digits among those that round to it and, of these, the nearest to it. Of two that are equally near,
it is the larger one.

For one digit, two digits and so on, the two neighbours of the number on the grid of decimals with
so many digits are tested; the first grid with a hit decides. Seventeen digits always suffice.
-/

namespace InteriorPoint

namespace Decimal

/-- The decimal `c·10^t` reads back as `x`: it lies between the middles of `x` and its two
neighbours. A middle counts if the mantissa of `x` is even. Below a power of two the neighbour is
half as far away, except at the smallest exponent. -/
def readsBack (x : Binary) (c : Nat) (t : Int) : Bool :=
  let lower := 4 * x.mantissa - (if x.mantissa = Nat.pow 2 52 ∧ -1074 < x.exponent then 1 else 2)
  let upper := 4 * x.mantissa + 2
  let quarter : Int := x.exponent - 2
  let value := c * above 10 t * below 2 quarter
  let unit := above 2 quarter * below 10 t
  if x.mantissa % 2 = 0 then decide (lower * unit ≤ value ∧ value ≤ upper * unit)
  else decide (lower * unit < value ∧ value < upper * unit)

/-- The neighbour of `x` on the grid of multiples of `10^t` that reads back as `x`, if there is
one; the nearer of two, and the larger if they are equally near. -/
def hit? (x : Binary) (t : Int) : Option Nat :=
  let c := x.floor t
  let excess := 2 * (x.numerator t % x.denominator t)
  match readsBack x c t, readsBack x (c + 1) t with
  | true, true => some (if excess < x.denominator t then c else c + 1)
  | true, false => some c
  | false, true => some (c + 1)
  | false, false => none

/-- A whole number without its trailing zeros. -/
def dropZeros : (fuel : Nat) → Nat → Nat
  | 0, c => c
  | fuel + 1, c => if c % 10 = 0 then dropZeros fuel (c / 10) else c

/-- The hit on the first grid, from `k` digits on, that has one. -/
def shortestFrom (x : Binary) (e : Int) : (fuel : Nat) → (k : Nat) → Digits
  | 0, k => { coefficient := x.floor (e - k + 1), exponent := e }
  | fuel + 1, k =>
    match hit? x (e - k + 1) with
    | some c =>
      { coefficient := dropZeros 20 c, exponent := if c = Nat.pow 10 k then e + 1 else e }
    | none => shortestFrom x e fuel (k + 1)

/-- **The shortest decimal** of a magnitude. Zero has the digit zero. -/
def shortest (x : Binary) : Digits :=
  if x.mantissa = 0 then { coefficient := 0, exponent := 0 }
  else shortestFrom x x.decimalExponent 17 1

end Decimal

end InteriorPoint

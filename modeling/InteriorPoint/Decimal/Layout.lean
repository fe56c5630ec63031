import InteriorPoint.Decimal.Rounded
import InteriorPoint.Decimal.Shortest

/-!
# Decimal text

How numbers are written. There are four layouts:

* `plain`: the shortest digits, positional, whatever the size of the number (`0.0000001`);
* `scientific`: the shortest digits with an exponent of ten (`1.5e-10`);
* `mixed`: positional with a point in any case (`1.0`), but scientific for numbers that are not
  zero and below `10⁻⁴` or from `10¹⁶` on;
* `scientificWith k`: with an exponent of ten and exactly `k` digits after the point
  (`1.000e-13`).

An undefined number is `NaN` and the infinite ones are `inf` and `-inf` in each of them.
-/

namespace InteriorPoint

namespace Decimal

/-- A run of zeros. -/
def zeros (k : Nat) : String := String.ofList (List.replicate k '0')

/-- The text of a number: words for what is not finite, and for the rest a sign and the text of
the magnitude. -/
def written (magnitude : Binary → String) (x : Float) : String :=
  match Parts.ofFloat x with
  | .undefined => "NaN"
  | .infinite negative => if negative then "-inf" else "inf"
  | .finite negative m => if negative then "-" ++ magnitude m else magnitude m

/-- Digits in positional form. -/
def positional (d : Digits) : String :=
  let digits := toString d.coefficient
  let point : Int := d.exponent + 1
  if point ≤ 0 then "0." ++ zeros (-point).toNat ++ digits
  else
    let k := point.toNat
    if digits.length ≤ k then digits ++ zeros (k - digits.length)
    else
      String.ofList (digits.toList.take k) ++ "." ++ String.ofList (digits.toList.drop k)

/-- Digits with the point after the first one, and the exponent of ten. -/
def withExponent (d : Digits) : String :=
  let digits := (toString d.coefficient).toList
  let fraction := digits.drop 1
  String.ofList (digits.take 1) ++ (if fraction = [] then "" else "." ++ String.ofList fraction)
    ++ "e" ++ toString d.exponent

/-- The shortest digits in positional form. -/
def plain : Float → String := written fun m =>
  if m.mantissa = 0 then "0" else positional (shortest m)

/-- The shortest digits with an exponent. -/
def scientific : Float → String := written fun m => withExponent (shortest m)

/-- **The layout of values in records**: always with a point or an exponent. -/
def mixed : Float → String := written fun m =>
  let d := shortest m
  if m.mantissa = 0 then "0.0"
  else if d.exponent < -4 ∨ 16 ≤ d.exponent then withExponent d
  else if (d.exponent : Int) < (toString d.coefficient).length - 1 then positional d
  else positional d ++ ".0"

/-- Exactly `k` digits after the point, with an exponent. -/
def scientificWith (k : Nat) : Float → String := written fun m =>
  if m.mantissa = 0 then "0." ++ zeros k ++ "e0" else withExponent (rounded (k + 1) m)

end Decimal

end InteriorPoint

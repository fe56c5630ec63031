/-!
# Binary numbers taken apart

A finite double-precision number is a whole number times a power of two. This module reads both
from the bits, and compares such products with decimal numbers in exact arithmetic.
-/

namespace InteriorPoint

namespace Decimal

/-- The magnitude `mantissa·2^exponent` of a finite number. -/
structure Binary where
  /-- The whole number. -/
  mantissa : Nat
  /-- The power of two. -/
  exponent : Int
  deriving DecidableEq

/-- A double-precision number by its parts: not a number, or a sign with infinity or a finite
magnitude. -/
inductive Parts where
  | undefined
  | infinite (negative : Bool)
  | finite (negative : Bool) (magnitude : Binary)

/-- **The parts of a double-precision number**, from its sign bit, its 11 bits of exponent and its
52 bits of fraction. -/
def Parts.ofFloat (x : Float) : Parts :=
  let bits := x.toBits.toNat
  let negative := decide (Nat.pow 2 63 ≤ bits)
  let biased : Nat := bits / Nat.pow 2 52 % Nat.pow 2 11
  let fraction : Nat := bits % Nat.pow 2 52
  if biased = Nat.pow 2 11 - 1 then
    if fraction = 0 then .infinite negative else .undefined
  else if biased = 0 then .finite negative { mantissa := fraction, exponent := -1074 }
  else .finite negative { mantissa := Nat.pow 2 52 + fraction, exponent := (biased : Int) - 1075 }

/-- The power `b^e` as a factor of a numerator: one if `e` is negative. -/
def above (b : Nat) (e : Int) : Nat := Nat.pow b e.toNat

/-- The power `b^(-e)` as a factor of a denominator: one if `e` is positive. -/
def below (b : Nat) (e : Int) : Nat := Nat.pow b (-e).toNat

namespace Binary

/-- The numerator of a magnitude in units of `10^t`. -/
def numerator (x : Binary) (t : Int) : Nat := x.mantissa * above 2 x.exponent * below 10 t

/-- The denominator of a magnitude in units of `10^t`. -/
def denominator (x : Binary) (t : Int) : Nat := below 2 x.exponent * above 10 t

/-- The whole part of a magnitude in units of `10^t`. -/
def floor (x : Binary) (t : Int) : Nat := x.numerator t / x.denominator t

/-- `10^t` is at most the magnitude. -/
def reaches (x : Binary) (t : Int) : Bool := decide (x.denominator t ≤ x.numerator t)

/-- The first power of ten above a lower estimate that the next power exceeds. -/
def climb (x : Binary) : (fuel : Nat) → Int → Int
  | 0, t => t
  | fuel + 1, t => if x.reaches (t + 1) then climb x fuel (t + 1) else t

/-- **The decimal exponent** of a positive magnitude: the power of ten of its first digit. The
estimate takes `log₁₀ 2` for 0.30103 and is at most three powers too low. -/
def decimalExponent (x : Binary) : Int :=
  let bits : Int := (Nat.log2 x.mantissa : Int) + x.exponent
  climb x 4 (bits * 30103 / 100000 - 1)

end Binary

/-- **A decimal number** `coefficient·10^power`, with a given decimal exponent of its first
digit. -/
structure Digits where
  /-- The digits, as a whole number. -/
  coefficient : Nat
  /-- The power of ten of the first digit. -/
  exponent : Int
  deriving DecidableEq

end Decimal

end InteriorPoint

/-!
# Scalars

Every algorithm of this library is written once, over a type of scalars of which only the
operations are known. Nothing is assumed about them: no law of a ring, no order, not even that a
value equals itself. So one definition can be read over the floating-point numbers that the
program runs on, over the real numbers, and over any other carrier with an undefined value, and
each reading brings its own laws.

Numerals are quotients of whole numbers (`ratio`). Both whole numbers are small enough to be
exact in double precision, so the one rounding of the division gives the double nearest to the
intended constant.
-/

namespace InteriorPoint

/-- The operations of a scalar type. Comparisons are decidable propositions, `==` is the scalar's
own equality, and `isNaN` singles out the undefined values. -/
class Scalar (α : Type) extends Zero α, One α, Add α, Sub α, Mul α, Div α, Neg α, LT α, LE α,
    BEq α, NatCast α where
  /-- The absolute value. -/
  abs : α → α
  /-- The square root. -/
  sqrt : α → α
  /-- The natural logarithm. -/
  log : α → α
  /-- One with the sign of the scalar; a negative zero counts as negative. -/
  signum : α → α
  /-- True of the undefined values. -/
  isNaN : α → Bool
  /-- True of the values that are neither undefined nor infinite. -/
  isFinite : α → Bool
  /-- Positive infinity, the value of a barrier outside its domain. -/
  infinity : α
  /-- The strict order is decidable. -/
  decidableLT : DecidableLT α
  /-- The order is decidable. -/
  decidableLE : DecidableLE α

attribute [reducible, instance] Scalar.decidableLT Scalar.decidableLE

-- a type with a division of its own keeps it
attribute [instance (low)] Scalar.toDiv

/-- **The scalars that run**: double-precision numbers. -/
instance : Scalar Float where
  zero := 0.0
  one := 1.0
  natCast := Float.ofNat
  abs := Float.abs
  sqrt := Float.sqrt
  log := Float.log
  signum x :=
    if x.isNaN then x else if x < 0.0 then -1.0 else if 1.0 / x < 0.0 then -1.0 else 1.0
  isNaN := Float.isNaN
  isFinite := Float.isFinite
  infinity := 1.0 / 0.0
  decidableLT := inferInstance
  decidableLE := inferInstance

namespace Scalar

variable {α : Type} [Scalar α]

/-- The quotient of two whole numbers. -/
def ratio (p q : Nat) : α := (p : α) / (q : α)

/-- The scalar 1/2. -/
def half : α := ratio 1 2

/-- The scalar 2. -/
def two : α := ((2 : Nat) : α)

/-- The power of ten `10⁻ᵏ`. -/
def tenth (k : Nat) : α := ratio 1 (Nat.pow 10 k)

/-- The distance `2⁻⁵²` from one to the next double-precision number. -/
def epsilon : α := ratio 1 (Nat.pow 2 52)

/-- **The larger of two scalars, undefined ones passed over.** It is undefined only if both
are; of two equal scalars it is the second, so `larger x 0` is never a negative zero. -/
def larger (x y : α) : α := if isNaN y = true ∨ y < x then x else y

end Scalar

end InteriorPoint

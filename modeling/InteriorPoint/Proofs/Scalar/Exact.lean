import InteriorPoint.Scalar
import Mathlib.Analysis.SpecialFunctions.Log.Basic
import Mathlib.Analysis.SpecialFunctions.Sqrt

/-!
# Exact scalars

A scalar type is exact if it contains the real numbers and computes with them without rounding.
It may contain more, infinities or an undefined value; what it does there is left open. So a
statement about an algorithm on real inputs can be made once for all exact scalars, and holds of
the real numbers themselves as well as of a carrier in which a value can be infinite.

A law is asked for only where the operation of `ℝ` means something: a quotient by zero, the
logarithm of a number that is not positive and the square root of a negative number are not
mentioned. What is finite is a real number, so infinities and undefined values are all that a
carrier can add.
-/

namespace InteriorPoint

/-- The numeral two is one of those that are at least two. By its name this fact is the same one in
every definition with the numeral. -/
instance atLeastTwo_two : Nat.AtLeastTwo 2 := ⟨le_rfl⟩

/-- **Scalars among which are the real numbers**, with exact operations on them. -/
class Exact (α : Type) [Scalar α] where
  /-- A real number as a scalar. -/
  real : ℝ → α
  /-- Zero is zero. -/
  real_zero : real 0 = 0
  /-- One is one. -/
  real_one : real 1 = 1
  /-- Whole numbers are themselves. -/
  real_natCast (k : ℕ) : real k = (k : α)
  /-- Sums are exact. -/
  add_real (x y : ℝ) : real x + real y = real (x + y)
  /-- Differences are exact. -/
  sub_real (x y : ℝ) : real x - real y = real (x - y)
  /-- Products are exact. -/
  mul_real (x y : ℝ) : real x * real y = real (x * y)
  /-- Opposites are exact. -/
  neg_real (x : ℝ) : -real x = real (-x)
  /-- Quotients are exact, unless the divisor is zero. -/
  div_real (x : ℝ) {y : ℝ} (hy : y ≠ 0) : real x / real y = real (x / y)
  /-- Absolute values are exact. -/
  abs_real (x : ℝ) : Scalar.abs (real x) = real |x|
  /-- Square roots are exact, unless the radicand is negative. -/
  sqrt_real {x : ℝ} (hx : 0 ≤ x) : Scalar.sqrt (real x) = real √x
  /-- Logarithms are exact, of positive numbers. -/
  log_real {x : ℝ} (hx : 0 < x) : Scalar.log (real x) = real (Real.log x)
  /-- The strict order is that of the real numbers. -/
  real_lt_real {x y : ℝ} : real x < real y ↔ x < y
  /-- The order is that of the real numbers. -/
  real_le_real {x y : ℝ} : real x ≤ real y ↔ x ≤ y
  /-- Equality is that of the real numbers. -/
  real_beq_real {x y : ℝ} : (real x == real y) = true ↔ x = y
  /-- No real number is undefined. -/
  isNaN_real (x : ℝ) : Scalar.isNaN (real x) = false
  /-- The finite scalars are the real numbers. -/
  isFinite_iff {v : α} : Scalar.isFinite v = true ↔ ∃ x, v = real x

namespace Exact

attribute [simp] add_real sub_real mul_real neg_real abs_real real_lt_real real_le_real
  real_beq_real isNaN_real

variable {α : Type} [Scalar α] [Exact α] {x y : ℝ}

/-- A real number is negative as a scalar if it is negative. -/
@[simp] theorem real_lt_zero : (real x : α) < 0 ↔ x < 0 := by
  rw [← real_zero, real_lt_real]

/-- Zero is at most a real number as a scalar if it is so. -/
@[simp] theorem zero_le_real : (0 : α) ≤ real x ↔ 0 ≤ x := by
  rw [← real_zero, real_le_real]

/-- A real number is at most zero as a scalar if it is so. -/
@[simp] theorem real_le_zero : (real x : α) ≤ 0 ↔ x ≤ 0 := by
  rw [← real_zero, real_le_real]

/-- Every real number is finite. -/
@[simp] theorem isFinite_real (x : ℝ) : Scalar.isFinite (real x : α) = true :=
  isFinite_iff.mpr ⟨x, rfl⟩

/-- The larger of two real numbers. -/
theorem larger_real (x y : ℝ) : Scalar.larger (real x : α) (real y) = real (max x y) := by
  unfold Scalar.larger
  rw [isNaN_real]
  by_cases h : y < x
  · rw [if_pos (Or.inr (real_lt_real.mpr h)), max_eq_left h.le]
  · rw [if_neg (not_or.mpr ⟨Bool.false_ne_true, real_lt_real.not.mpr h⟩),
      max_eq_right (not_lt.mp h)]

/-- A quotient of whole numbers. -/
theorem ratio_real (p : ℕ) {q : ℕ} (hq : q ≠ 0) : (Scalar.ratio p q : α) = real (p / q) := by
  unfold Scalar.ratio
  rw [← real_natCast p, ← real_natCast q, div_real _ (Nat.cast_ne_zero.mpr hq)]

/-- One half is one half. -/
theorem half_real : (Scalar.half : α) = real (1 / 2) := by
  unfold Scalar.half
  rw [ratio_real 1 two_ne_zero, Nat.cast_one, Nat.cast_ofNat]

/-- A power of ten. -/
theorem tenth_real (k : ℕ) : (Scalar.tenth k : α) = real (1 / 10 ^ k) := by
  have hne : 10 ^ k ≠ 0 := pow_ne_zero k (by decide)
  show Scalar.ratio 1 (10 ^ k) = _
  rw [ratio_real 1 hne, Nat.cast_one, Nat.cast_pow, Nat.cast_ofNat]

/-- Different real numbers are different scalars. -/
theorem real_injective : Function.Injective (real : ℝ → α) := by
  intro x y h
  rw [← real_beq_real (α := α), h, real_beq_real]

end Exact

end InteriorPoint

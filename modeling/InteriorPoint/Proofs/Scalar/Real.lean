import InteriorPoint.Proofs.Scalar.Exact

/-!
# Real scalars

The real numbers as scalars: exact arithmetic in which every value is defined and finite. This is
the carrier of the statements about linear systems, which never leave the real numbers.

There is no infinite real number. The field `infinity` is filled with zero, and nothing is said
over this carrier about a value that reads it.
-/

namespace InteriorPoint

open Classical in
/-- **The real numbers as scalars.** -/
noncomputable instance : Scalar ℝ where
  abs x := |x|
  sqrt := Real.sqrt
  log := Real.log
  signum x := if x < 0 then -1 else 1
  beq x y := decide (x = y)
  isNaN _ := false
  isFinite _ := true
  infinity := 0
  decidableLT := Classical.decRel _
  decidableLE := Classical.decRel _

/-- The real numbers are exact. -/
noncomputable instance : Exact ℝ where
  real := id
  real_zero := rfl
  real_one := rfl
  real_natCast _ := rfl
  add_real _ _ := rfl
  sub_real _ _ := rfl
  mul_real _ _ := rfl
  neg_real _ := rfl
  div_real _ _ _ := rfl
  abs_real _ := rfl
  sqrt_real _ := rfl
  log_real _ := rfl
  real_lt_real := Iff.rfl
  real_le_real := Iff.rfl
  real_beq_real := decide_eq_true_iff
  isNaN_real _ := rfl
  isFinite_iff {v} := ⟨fun _ => ⟨v, rfl⟩, fun _ => rfl⟩

namespace Scalar

variable (x y : ℝ)

@[simp] theorem abs_eq : Scalar.abs x = |x| := rfl

@[simp] theorem sqrt_eq : Scalar.sqrt x = √x := rfl

@[simp] theorem isNaN_eq : Scalar.isNaN x = false := rfl

@[simp] theorem isFinite_eq : Scalar.isFinite x = true := rfl

@[simp] theorem beq_iff : (x == y) = true ↔ x = y := decide_eq_true_iff

end Scalar

end InteriorPoint

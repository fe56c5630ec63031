import InteriorPoint.Function.Smooth
import InteriorPoint.Proofs.Scalar.Exact
import Mathlib.LinearAlgebra.Matrix.Notation

/-!
# Evaluations at real points

Over exact scalars a function is handed points with real coordinates, and as long as nothing
leaves the real numbers its value, its gradient and its Hessian are a real number, a real vector
and a real matrix. This module says so of one evaluation (`Smooth.HasValue`,
`Smooth.HasGradient`, `Smooth.HasHessian`), and what the operations on vectors and matrices come
to on real entries.
-/

namespace InteriorPoint

variable {α : Type} [Scalar α] [Exact α] {m n : ℕ}

namespace Exact

/-! ## Real vectors and matrices -/

/-- A vector of real numbers as a vector of scalars. -/
def vec (x : Fin n → ℝ) : Vec α n := Vector.ofFn fun i => real (x i)

/-- A matrix of real numbers as a matrix of scalars. -/
def mat (M : Matrix (Fin m) (Fin n) ℝ) : Mat α m n := Mat.of fun i j => real (M i j)

@[simp] theorem get_vec (x : Fin n → ℝ) (i : Fin n) : (vec x : Vec α n).get i = real (x i) :=
  Vec.get_ofFn _ i

@[simp] theorem entry_mat (M : Matrix (Fin m) (Fin n) ℝ) (i : Fin m) (j : Fin n) :
    Mat.entry (mat M : Mat α m n) i j = real (M i j) :=
  Mat.entry_of _ i j

/-- Different real vectors are different vectors of scalars. -/
theorem vec_injective : Function.Injective (vec : (Fin n → ℝ) → Vec α n) := by
  intro x y h
  funext i
  refine real_injective (α := α) ?_
  rw [← get_vec, h, get_vec]

/-- Different real matrices are different matrices of scalars. -/
theorem mat_injective : Function.Injective (mat : Matrix (Fin m) (Fin n) ℝ → Mat α m n) := by
  intro M N h
  ext i j
  refine real_injective (α := α) ?_
  rw [← entry_mat, h, entry_mat]

/-- Scaling a real vector scales its entries. -/
theorem scale_vec (x : Fin n → ℝ) (t : ℝ) :
    Vec.scale (vec x : Vec α n) (real t) = vec (t • x) := by
  refine Vec.ext_get fun i => ?_
  rw [Vec.get_scale, get_vec, get_vec, mul_real, Pi.smul_apply, smul_eq_mul, mul_comm]

/-- A multiple added to a real vector. -/
theorem addScaled_vec (s : ℝ) (v x : Fin n → ℝ) :
    Vec.addScaled (real s) (vec v : Vec α n) (vec x) = vec (s • v + x) := by
  refine Vec.ext_get fun i => ?_
  rw [Vec.get_addScaled, get_vec, get_vec, get_vec, mul_real, add_real]
  rfl

/-- Scaling every entry of a real matrix. -/
theorem mapEntries_mat (M : Matrix (Fin m) (Fin n) ℝ) (t : ℝ) :
    Mat.mapEntries (· * real t) (mat M : Mat α m n) = mat (t • M) := by
  refine Mat.ext_entry fun i j => ?_
  rw [Mat.entry_mapEntries, entry_mat, entry_mat, mul_real, Matrix.smul_apply, smul_eq_mul,
    mul_comm]

end Exact

namespace Smooth

open Exact

/-! ## One evaluation -/

variable (f : Smooth α n) (x : Fin n → ℝ)

/-- The value of `f` at the real point `x` is the real number `v`. -/
def HasValue (v : ℝ) : Prop := (f.value (vec x).toArray).outcome = .ok (real v)

/-- The gradient of `f` at the real point `x` evaluates to the real vector `g`. -/
def HasGradient (g : Fin n → ℝ) : Prop := (f.gradient (vec x).toArray).outcome = .ok (vec g)

/-- The Hessian of `f` at the real point `x` evaluates to the real matrix `K`. -/
def HasHessian (K : Matrix (Fin n) (Fin n) ℝ) : Prop :=
  (f.hessian (vec x).toArray).outcome = .ok (mat K)

end Smooth

end InteriorPoint

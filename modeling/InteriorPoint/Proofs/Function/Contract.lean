import InteriorPoint.Function.Quartic
import InteriorPoint.Proofs.Function.RealPoint
import Mathlib.Analysis.CStarAlgebra.Matrix
import Mathlib.Analysis.Calculus.Gradient.Basic
import Mathlib.Analysis.InnerProductSpace.Calculus

/-!
# The contract of the derivatives

A smooth function promises that its gradient is the gradient of its value and its Hessian the
derivative of its gradient. `Smooth.TrueGradientAt` and `Smooth.TrueHessianAt` say that the
promise is kept at a point, for the derivatives of analysis on Euclidean space: the function has
to be real near the point, and what it returns there has to be the derivative.

The curved constraint `Quartic.ball` keeps both promises everywhere.
-/

open Topology

namespace InteriorPoint

open Exact

/-- The points of `n`-dimensional Euclidean space. -/
abbrev Space (n : ℕ) := EuclideanSpace ℝ (Fin n)

variable {α : Type} [Scalar α] [Exact α] {n : ℕ}

namespace Smooth

/-- **The gradient at `x` is the gradient of the value**: near `x` the value is a real function,
and what the gradient evaluates to at `x` is the Fréchet gradient of that function. -/
def TrueGradientAt (f : Smooth α n) (x : Space n) : Prop :=
  ∃ (F : Space n → ℝ) (g : Space n),
    (∀ᶠ y : Space n in 𝓝 x, f.HasValue y (F y)) ∧ f.HasGradient x g ∧ HasGradientAt F g x

/-- **The Hessian at `x` is the derivative of the gradient**: near `x` the gradient is a real
vector field, and what the Hessian evaluates to at `x` is the matrix of its Fréchet derivative. -/
def TrueHessianAt (f : Smooth α n) (x : Space n) : Prop :=
  ∃ (G : Space n → Space n) (K : Matrix (Fin n) (Fin n) ℝ),
    (∀ᶠ y : Space n in 𝓝 x, f.HasGradient y (G y)) ∧ f.HasHessian x K ∧
      HasFDerivAt G (Matrix.toEuclideanCLM (𝕜 := ℝ) K) x

end Smooth

/-! ## A curved constraint -/

namespace Quartic

/-- The coordinates of a real point are real. -/
theorem coordinate_vec (x : Fin n → ℝ) (i : Fin n) :
    coordinate (vec x : Vec α n).toArray i = pure (real (x i)) := by
  have h : (vec x : Vec α n).toArray[(i : ℕ)]? = some (real (x i)) := by
    simp [vec]
  rw [coordinate, h]

/-- A small whole number is a real number. -/
theorem whole_eq_real (k : ℕ) : (whole k : α) = real k := (real_natCast k).symm

/-- The value of the quartic constraint at a real point. -/
theorem hasValue_ball (x : Fin 2 → ℝ) :
    (ball : Smooth α 2).HasValue x (x 0 * x 0 * (x 0 * x 0) + x 1 * x 1 - 4) := by
  have h₀ : coordinate (vec x : Vec α 2).toArray 0 = pure (real (x 0)) := coordinate_vec x 0
  have h₁ : coordinate (vec x : Vec α 2).toArray 1 = pure (real (x 1)) := coordinate_vec x 1
  show (coordinate (vec x).toArray 0 >>= fun x₀ => coordinate (vec x).toArray 1 >>= fun x₁ =>
    pure (x₀ * x₀ * (x₀ * x₀) + x₁ * x₁ - whole 4) : Answer α α).outcome = _
  rw [h₀, pure_bind, h₁, pure_bind, whole_eq_real]
  simp only [mul_real, add_real, sub_real]
  rfl

/-- The gradient of the quartic constraint at a real point. -/
theorem hasGradient_ball (x : Fin 2 → ℝ) :
    (ball : Smooth α 2).HasGradient x ![4 * (x 0 * (x 0 * x 0)), 2 * x 1] := by
  have h₀ : coordinate (vec x : Vec α 2).toArray 0 = pure (real (x 0)) := coordinate_vec x 0
  have h₁ : coordinate (vec x : Vec α 2).toArray 1 = pure (real (x 1)) := coordinate_vec x 1
  show (coordinate (vec x).toArray 0 >>= fun x₀ => coordinate (vec x).toArray 1 >>= fun x₁ =>
    pure #v[whole 4 * (x₀ * (x₀ * x₀)), whole 2 * x₁] : Answer α (Vec α 2)).outcome = _
  rw [h₀, pure_bind, h₁, pure_bind, whole_eq_real, whole_eq_real]
  simp only [mul_real]
  refine congrArg Except.ok (Vec.ext_get fun i => ?_)
  rw [get_vec]
  fin_cases i <;> rfl

/-- The Hessian of the quartic constraint at a real point. -/
theorem hasHessian_ball (x : Fin 2 → ℝ) :
    (ball : Smooth α 2).HasHessian x !![12 * (x 0 * x 0), 0; 0, 2] := by
  have h₀ : coordinate (vec x : Vec α 2).toArray 0 = pure (real (x 0)) := coordinate_vec x 0
  show (coordinate (vec x).toArray 0 >>= fun x₀ =>
    pure #v[#v[whole 12 * (x₀ * x₀), 0], #v[0, whole 2]] : Answer α (Mat α 2 2)).outcome = _
  rw [h₀, pure_bind, whole_eq_real, whole_eq_real, ← real_zero]
  simp only [mul_real]
  refine congrArg Except.ok (Mat.ext_entry fun i j => ?_)
  rw [entry_mat]
  fin_cases i <;> fin_cases j <;> rfl

/-- A coordinate of a point, differentiated. -/
theorem hasFDerivAt_coordinate (x : Space 2) (i : Fin 2) :
    HasFDerivAt (fun y : Space 2 => y i) (EuclideanSpace.proj (𝕜 := ℝ) i) x :=
  (EuclideanSpace.proj (𝕜 := ℝ) i).hasFDerivAt

/-- **The quartic constraint keeps the gradient contract** everywhere. -/
theorem trueGradientAt_ball (x : Space 2) : (ball : Smooth α 2).TrueGradientAt x := by
  refine ⟨fun y => y 0 * y 0 * (y 0 * y 0) + y 1 * y 1 - 4,
    !₂[4 * (x 0 * (x 0 * x 0)), 2 * x 1], .of_forall fun y => hasValue_ball y,
    hasGradient_ball x, ?_⟩
  have h₀ := hasFDerivAt_coordinate x 0
  have h₁ := hasFDerivAt_coordinate x 1
  refine ((((h₀.mul h₀).mul (h₀.mul h₀)).add (h₁.mul h₁)).sub_const 4).congr_fderiv ?_
  ext h
  simp [PiLp.inner_apply, Fin.sum_univ_two]
  ring

/-- **The quartic constraint keeps the Hessian contract** everywhere. -/
theorem trueHessianAt_ball (x : Space 2) : (ball : Smooth α 2).TrueHessianAt x := by
  refine ⟨fun y => !₂[4 * (y 0 * (y 0 * y 0)), 2 * y 1], !![12 * (x 0 * x 0), 0; 0, 2],
    .of_forall fun y => hasGradient_ball y, hasHessian_ball x, ?_⟩
  have h₀ := hasFDerivAt_coordinate x 0
  have h₁ := hasFDerivAt_coordinate x 1
  refine hasFDerivWithinAt_univ.mp (hasFDerivWithinAt_euclidean.mpr fun i => ?_)
  rw [hasFDerivWithinAt_univ]
  fin_cases i
  · refine ((h₀.mul (h₀.mul h₀)).const_mul 4).congr_fderiv ?_
    ext h
    simp [Matrix.mulVec, dotProduct, Fin.sum_univ_two]
    ring
  · refine (h₁.const_mul 2).congr_fderiv ?_
    ext h
    simp [Matrix.mulVec, dotProduct, Fin.sum_univ_two]

end Quartic

end InteriorPoint

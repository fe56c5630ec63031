import InteriorPoint.Function.Quadratic
import InteriorPoint.Proofs.Linear.Checks
import InteriorPoint.Proofs.Linear.RealEntries
import Mathlib.LinearAlgebra.Matrix.Symmetric

/-!
# The formulas of a quadratic function

At a real point a quadratic function with real terms `A`, `b` and `c` has, over exact scalars,

* the value `½·xᵀAx + bᵀx + c`
* the gradient `Ax + b`
* the Hessian `A`

Along a line the value is the one of a parabola (`valueOf_add_smul`) if `A` is symmetric.
-/

open scoped Matrix

namespace InteriorPoint

namespace Quadratic

open Exact

variable {n : ℕ}

/-! ## Real terms -/

/-- The value of the quadratic function with given terms. -/
noncomputable def valueOf (A : Matrix (Fin n) (Fin n) ℝ) (b : Fin n → ℝ) (c : ℝ) (x : Fin n → ℝ) :
    ℝ :=
  1 / 2 * (x ⬝ᵥ A *ᵥ x) + b ⬝ᵥ x + c

/-- **The expansion of a quadratic function**, whose last term is what the asymmetry of the
quadratic term adds to that of second order. -/
theorem valueOf_add (A : Matrix (Fin n) (Fin n) ℝ) (b : Fin n → ℝ) (c : ℝ) (x h : Fin n → ℝ) :
    valueOf A b c (x + h) = valueOf A b c x + (A *ᵥ x + b) ⬝ᵥ h + 1 / 2 * (h ⬝ᵥ A *ᵥ h)
      + 1 / 2 * (x ⬝ᵥ A *ᵥ h - h ⬝ᵥ A *ᵥ x) := by
  unfold valueOf
  rw [Matrix.mulVec_add, add_dotProduct, dotProduct_add, dotProduct_add, dotProduct_add,
    add_dotProduct, dotProduct_comm (A *ᵥ x) h]
  ring

/-- **Along a line** the value of a quadratic function is a parabola, whose slope and curvature are
those of its gradient and its quadratic term. -/
theorem valueOf_add_smul {A : Matrix (Fin n) (Fin n) ℝ} (hA : A.IsSymm) (b : Fin n → ℝ) (c : ℝ)
    (x v : Fin n → ℝ) (s : ℝ) :
    valueOf A b c (x + s • v)
      = valueOf A b c x + s * ((A *ᵥ x + b) ⬝ᵥ v) + s ^ 2 / 2 * (v ⬝ᵥ A *ᵥ v) := by
  have hmixed : x ⬝ᵥ A *ᵥ v = v ⬝ᵥ A *ᵥ x := by
    rw [Matrix.dotProduct_mulVec, ← Matrix.mulVec_transpose, hA.eq, dotProduct_comm]
  rw [valueOf_add, Matrix.mulVec_smul, dotProduct_smul, dotProduct_smul, dotProduct_smul,
    smul_dotProduct, smul_dotProduct, hmixed, sub_self, mul_zero, add_zero]
  simp only [smul_eq_mul]
  ring

/-! ## Construction -/

/-- **What passes the test of symmetry is accepted**, as it is. -/
theorem ofDense_ofMat {α : Type} [Scalar α] {b : Array α} (A : Mat α b.size b.size) (c : α)
    (hn : 0 < b.size) (hA : Dense.firstAsymmetry? A Dense.symmetryTolerance = none) :
    ofDense (.ofMat A) b c
      = .ok { a := A, b := ⟨b, rfl⟩, c := c, dim_pos := hn, symmetric := hA } := by
  unfold ofDense
  rw [dif_pos hn, Dense.shaped_ofMat]
  dsimp only
  split
  · rename_i h
    exact nomatch hA.symm.trans h
  · rfl

section Construction

variable {α : Type} [Scalar α] [Exact α]

/-- A real symmetric matrix passes the test of symmetry. -/
theorem firstAsymmetry?_mat {A : Matrix (Fin n) (Fin n) ℝ} (hA : A.IsSymm) :
    Dense.firstAsymmetry? (mat A : Mat α n n) Dense.symmetryTolerance = none := by
  refine List.find?_eq_none.mpr fun p _ => ?_
  show ¬ Dense.apart _ (Mat.entry (mat A) p.1 p.2) (Mat.entry (mat A) p.2 p.1) = true
  rw [Dense.symmetryTolerance_eq_real, entry_mat, entry_mat, hA.apply,
    Dense.apart_real_self (by positivity)]
  exact Bool.false_ne_true

/-- The quadratic function with given real terms. -/
def ofTerms (hn : 0 < n) {A : Matrix (Fin n) (Fin n) ℝ} (hA : A.IsSymm) (b : Fin n → ℝ) (c : ℝ) :
    Quadratic α n where
  a := mat A
  b := vec b
  c := real c
  dim_pos := hn
  symmetric := firstAsymmetry?_mat hA

end Construction

/-- **The asymmetry that is let through**, over the real numbers: it is relative for large entries
and absolute for small ones. -/
theorem abs_sub_transposed_le (q : Quadratic ℝ n) (i j : Fin n) :
    |Mat.entry q.a i j - Mat.entry q.a j i|
      ≤ 1 / 10 ^ 6 * max (max |Mat.entry q.a i j| |Mat.entry q.a j i|) 1 := by
  have hτ : (0 : ℝ) ≤ 1 / 10 ^ 6 := by positivity
  have habove := Dense.firstAsymmetry?_eq_none_iff.mp q.symmetric
  rw [Dense.symmetryTolerance_eq_real] at habove
  exact Dense.apart_eq_false_iff.mp ((Dense.forall_above_iff hτ).mp habove i j)

/-! ## Evaluation -/

section Exact

variable {α : Type} [Scalar α] [Exact α] {A : Matrix (Fin n) (Fin n) ℝ} {b : Fin n → ℝ} {c : ℝ}

/-- **The value of a quadratic function** with real terms. -/
theorem hasValue_toSmooth {f : Quadratic α n} (ha : f.a = mat A) (hb : f.b = vec b)
    (hc : f.c = real c) (x : Fin n → ℝ) : f.toSmooth.HasValue x (valueOf A b c x) := by
  show ((Smooth.point n (vec x).toArray >>= fun x => pure (f.valueAt x) : Answer α α)).outcome = _
  rw [Smooth.point_toArray, pure_bind]
  show Except.ok (Scalar.half * Vec.dot (Mat.mulVec f.a (vec x)) (vec x) + Vec.dot f.b (vec x)
    + f.c) = _
  rw [ha, hb, hc, mulVec_vec, dot_vec, dot_vec, half_real, mul_real, add_real, add_real,
    dotProduct_comm (A *ᵥ x) x]
  rfl

/-- **The gradient of a quadratic function** with real terms. -/
theorem hasGradient_toSmooth {f : Quadratic α n} (ha : f.a = mat A) (hb : f.b = vec b)
    (x : Fin n → ℝ) : f.toSmooth.HasGradient x (A *ᵥ x + b) := by
  show ((Smooth.point n (vec x).toArray >>= fun x => pure (f.gradientAt x) :
    Answer α (Vec α n))).outcome = _
  rw [Smooth.point_toArray, pure_bind]
  show Except.ok (Vec.add (Mat.mulVec f.a (vec x)) f.b) = _
  rw [ha, hb, mulVec_vec, add_vec]

/-- **The Hessian of a quadratic function** with real terms. -/
theorem hasHessian_toSmooth {f : Quadratic α n} (ha : f.a = mat A) (x : Fin n → ℝ) :
    f.toSmooth.HasHessian x A := by
  show ((Smooth.point n (vec x).toArray >>= fun _ => pure f.a :
    Answer α (Mat α n n))).outcome = _
  rw [Smooth.point_toArray, pure_bind, ha]
  rfl

end Exact

/-- **A quadratic function over the real numbers** has the three formulas. -/
theorem formulas_toSmooth (q : Quadratic ℝ n) (x : Fin n → ℝ) :
    q.toSmooth.HasValue x (valueOf q.a.toMatrix q.b.get q.c x) ∧
      q.toSmooth.HasGradient x (q.a.toMatrix *ᵥ x + q.b.get) ∧
      q.toSmooth.HasHessian x q.a.toMatrix :=
  have ha : q.a = mat q.a.toMatrix := (mat_toMatrix_real _).symm
  have hb : q.b = vec q.b.get := (vec_get_real _).symm
  ⟨hasValue_toSmooth ha hb rfl x, hasGradient_toSmooth ha hb x, hasHessian_toSmooth ha x⟩

/-! ## Affine functions of one variable -/

/-- Half the square of the distance from the origin. -/
def halfSquare {α : Type} [Scalar α] [Exact α] (hn : 0 < n) : Quadratic α n :=
  ofTerms hn Matrix.isSymm_one 0 0

/-- The affine function `b·x + c` of one variable. -/
def affine {α : Type} [Scalar α] [Exact α] (b c : ℝ) : Quadratic α 1 :=
  ofTerms one_pos (A := 0) Matrix.isSymm_zero ![b] c

/-- The formulas of an affine function. -/
theorem formulas_affine {α : Type} [Scalar α] [Exact α] (b c : ℝ) (x : Fin 1 → ℝ) :
    (affine b c : Quadratic α 1).toSmooth.HasValue x (b * x 0 + c) ∧
      (affine b c : Quadratic α 1).toSmooth.HasGradient x ![b] ∧
      (affine b c : Quadratic α 1).toSmooth.HasHessian x 0 := by
  have hvalue : valueOf 0 ![b] c x = b * x 0 + c := by
    rw [valueOf, Matrix.zero_mulVec, dotProduct_zero, mul_zero, zero_add, dotProduct,
      Fin.sum_univ_one]
    rfl
  have hgradient : (0 : Matrix (Fin 1) (Fin 1) ℝ) *ᵥ x + ![b] = ![b] := by
    rw [Matrix.zero_mulVec, zero_add]
  exact ⟨hvalue ▸ hasValue_toSmooth rfl rfl rfl x, hgradient ▸ hasGradient_toSmooth rfl rfl x,
    hasHessian_toSmooth rfl x⟩

end Quadratic

end InteriorPoint

import InteriorPoint.Proofs.Function.RealPoint
import InteriorPoint.Proofs.Linear.RealMatrix

/-!
# Products of real vectors and matrices

Over exact scalars a running sum of real numbers is the real number that it is over `ℝ`, so inner
products and products of matrices with vectors that have real entries are those of linear algebra
(`dot_vec`, `mulVec_vec`), whatever else the scalars contain.

Over `ℝ` itself every entry is real: a stored vector or matrix is the one of its entries.
-/

open scoped Matrix

namespace InteriorPoint

/-! ## Over the real numbers -/

section Real

open Exact

variable {m n : ℕ}

/-- The entries of a real vector, over the real numbers. -/
@[simp] theorem get_vec_real (x : Fin n → ℝ) : (vec x : Vec ℝ n).get = x := funext (get_vec x)

/-- A stored vector over the real numbers is the one of its entries. -/
@[simp] theorem vec_get_real (x : Vec ℝ n) : vec x.get = x :=
  Vec.ext_get fun i => get_vec x.get i

/-- The entries of a real matrix, over the real numbers. -/
@[simp] theorem toMatrix_mat_real (M : Matrix (Fin m) (Fin n) ℝ) :
    (mat M : Mat ℝ m n).toMatrix = M :=
  Matrix.ext fun i j => entry_mat M i j

/-- A stored matrix over the real numbers is the one of its entries. -/
@[simp] theorem mat_toMatrix_real (M : Mat ℝ m n) : mat M.toMatrix = M :=
  Mat.ext_entry fun i j => entry_mat M.toMatrix i j

end Real

namespace Exact

variable {α : Type} [Scalar α] [Exact α] {m n : ℕ}

/-! ## Running sums -/

/-- A loop whose steps stay among the real numbers is the loop over the real numbers. -/
theorem foldl_real {step : α → Fin n → α} {realStep : ℝ → Fin n → ℝ}
    (hstep : ∀ a j, step (real a) j = real (realStep a j)) (a : ℝ) :
    Fin.foldl n step (real a) = real (Fin.foldl n realStep a) := by
  induction n with
  | zero => rw [Fin.foldl_zero, Fin.foldl_zero]
  | succ n ih =>
    rw [Fin.foldl_succ_last, Fin.foldl_succ_last, ← hstep]
    have hinit := @ih (fun a j => step a j.castSucc) (fun a j => realStep a j.castSucc)
      fun a j => hstep a j.castSucc
    exact congrArg (step · _) hinit

/-- A partial sum of products of real numbers. -/
theorem lane_real (x y : Fin n → ℝ) (k : Fin 8) :
    Vec.lane (fun i => (real (x i) : α)) (fun i => real (y i)) k = real (Vec.lane x y k) := by
  unfold Vec.lane
  rw [← real_zero]
  exact foldl_real (fun a b => by rw [mul_real, add_real]) 0

/-- A sum of products of real numbers. -/
theorem sumProducts_real (x y : Fin n → ℝ) :
    Vec.sumProducts (fun i => (real (x i) : α)) (fun i => real (y i)) = real (x ⬝ᵥ y) := by
  rw [← Vec.sumProducts_eq]
  unfold Vec.sumProducts
  simp only [lane_real]
  rw [← real_zero]
  simp only [add_real]
  exact foldl_real (fun a r => by rw [mul_real, add_real]) _

/-! ## Products -/

/-- **The inner product of real vectors.** -/
theorem dot_vec (x y : Fin n → ℝ) : Vec.dot (vec x : Vec α n) (vec y) = real (x ⬝ᵥ y) := by
  rw [← sumProducts_real]
  exact congrArg₂ Vec.sumProducts (funext (get_vec x)) (funext (get_vec y))

/-- The sum of real vectors. -/
theorem add_vec (x y : Fin n → ℝ) : Vec.add (vec x : Vec α n) (vec y) = vec (x + y) := by
  refine Vec.ext_get fun i => ?_
  rw [Vec.get_add, get_vec, get_vec, get_vec, add_real]
  rfl

/-- **The product of a real matrix and a real vector.** -/
theorem mulVec_vec (M : Matrix (Fin m) (Fin n) ℝ) (x : Fin n → ℝ) :
    Mat.mulVec (mat M : Mat α m n) (vec x) = vec (M *ᵥ x) := by
  refine Vec.ext_get fun i => ?_
  have hreal := congrFun (Mat.get_mulVec_eq (mat M : Mat ℝ m n) (vec x)) i
  rw [toMatrix_mat_real, get_vec_real] at hreal
  rw [get_vec, ← hreal, Mat.get_mulVec, Mat.get_mulVec, ← real_zero]
  refine foldl_real (fun a j => ?_) 0
  rw [entry_mat, get_vec, mul_real, add_real, ← apply_ite real, entry_mat, get_vec]
  rfl

end Exact

end InteriorPoint

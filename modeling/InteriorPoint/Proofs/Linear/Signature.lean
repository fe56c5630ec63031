import InteriorPoint.Proofs.Scalar.Real
import Mathlib.Analysis.Matrix.Spectrum
import Mathlib.LinearAlgebra.QuadraticForm.Signature

/-!
# Signs of eigenvalues

The eigenvalues of a symmetric matrix are the weights of its quadratic form in an orthonormal basis.
By the law of inertia the number of positive ones is the largest dimension on which the form is
positive (`countP_pos_eq_sigPos`), and the number of negative ones the largest on which it is
negative (`countP_neg_eq_sigNeg`). The eigenvalues are given as a list, in any order, with
multiplicity: the roots of the characteristic polynomial.
-/

open Matrix QuadraticForm QuadraticMap

namespace InteriorPoint

variable {ι : Type*} [Fintype ι] [DecidableEq ι] {K : Matrix ι ι ℝ}

/-! ## The quadratic form of a matrix -/

/-- The value of the form. -/
theorem quadraticForm_apply (K : Matrix ι ι ℝ) (x : ι → ℝ) :
    K.toQuadraticForm' x = x ⬝ᵥ K *ᵥ x :=
  Matrix.toLinearMap₂'_apply' K x x

/-- The radical of the form is the null space of the matrix. -/
theorem mem_radical_iff_mulVec_eq_zero (hK : K.IsSymm) {z : ι → ℝ} :
    z ∈ K.toQuadraticForm'.radical ↔ K *ᵥ z = 0 := by
  have hcomm : ∀ y, z ⬝ᵥ K *ᵥ y = y ⬝ᵥ K *ᵥ z := by
    intro y
    rw [dotProduct_mulVec, ← mulVec_transpose, hK.eq, dotProduct_comm]
  have hsum : ∀ y, K.toQuadraticForm' (z + y)
      = K.toQuadraticForm' y + z ⬝ᵥ K *ᵥ z + 2 * (y ⬝ᵥ K *ᵥ z) := by
    intro y
    rw [quadraticForm_apply, quadraticForm_apply, mulVec_add, add_dotProduct, dotProduct_add,
      dotProduct_add, hcomm y]
    ring
  rw [mem_radical_iff']
  constructor
  · rintro ⟨hz, hall⟩
    rw [quadraticForm_apply] at hz
    have h := hall (K *ᵥ z)
    rw [hsum, hz] at h
    exact dotProduct_self_eq_zero.mp (by linarith)
  · intro hz
    refine ⟨?_, fun y => ?_⟩
    · rw [quadraticForm_apply, hz, dotProduct_zero]
    · rw [hsum, hz, dotProduct_zero, dotProduct_zero, mul_zero, add_zero, add_zero]

/-! ## In an eigenbasis -/

/-- In the coordinates of an eigenbasis, the form is a weighted sum of squares. -/
theorem quadraticForm_eigenvectorUnitary (hK : K.IsHermitian) (c : ι → ℝ) :
    K.toQuadraticForm' ((hK.eigenvectorUnitary : Matrix ι ι ℝ) *ᵥ c)
      = weightedSumSquares ℝ hK.eigenvalues c := by
  have hdiagonal : (hK.eigenvectorUnitary : Matrix ι ι ℝ)ᵀ * K * hK.eigenvectorUnitary
      = diagonal hK.eigenvalues :=
    (Unitary.conjStarAlgAut_star_apply (S := ℝ) hK.eigenvectorUnitary K).symm.trans
      hK.conjStarAlgAut_star_eigenvectorUnitary
  rw [quadraticForm_apply, ← vecMul_transpose, ← dotProduct_mulVec, vecMul_transpose, mulVec_mulVec,
    mulVec_mulVec, hdiagonal, weightedSumSquares_apply]
  refine Finset.sum_congr rfl fun i _ => ?_
  rw [Matrix.mulVec_diagonal, smul_eq_mul, mul_left_comm]

/-- The form of a symmetric matrix has its eigenvalues as weights. -/
theorem equivalent_weightedSumSquares (hK : K.IsHermitian) :
    Equivalent K.toQuadraticForm' (weightedSumSquares ℝ hK.eigenvalues) :=
  have h : Equivalent (weightedSumSquares ℝ hK.eigenvalues) K.toQuadraticForm' :=
    ⟨⟨UnitaryGroup.toLinearEquiv hK.eigenvectorUnitary, quadraticForm_eigenvectorUnitary hK⟩⟩
  h.symm

/-! ## Counting eigenvalues -/

variable {l : List ℝ}

/-- Counting in a list of the eigenvalues. -/
theorem countP_eq_ncard (hK : K.IsHermitian) (hl : (l : Multiset ℝ) = K.charpoly.roots)
    (q : ℝ → Prop) [DecidablePred q] : l.countP q = {i | q (hK.eigenvalues i)}.ncard := by
  rw [← Multiset.coe_countP, hl, hK.roots_charpoly_eq_eigenvalues, Multiset.countP_map,
    Set.ncard_eq_toFinset_card', Set.toFinset_ofPred]
  rfl

/-- **The number of positive eigenvalues** is the largest dimension on which the form is
positive. -/
theorem countP_pos_eq_sigPos (hK : K.IsHermitian) (hl : (l : Multiset ℝ) = K.charpoly.roots) :
    l.countP (0 < ·) = sigPos K.toQuadraticForm' := by
  rw [sigPos_of_equiv_weightedSumSquares (equivalent_weightedSumSquares hK)]
  exact countP_eq_ncard hK hl (0 < ·)

/-- **The number of negative eigenvalues** is the largest dimension on which the form is
negative. -/
theorem countP_neg_eq_sigNeg (hK : K.IsHermitian) (hl : (l : Multiset ℝ) = K.charpoly.roots) :
    l.countP (· < 0) = sigNeg K.toQuadraticForm' := by
  rw [sigNeg_of_equiv_weightedSumSquares (equivalent_weightedSumSquares hK)]
  exact countP_eq_ncard hK hl (· < 0)

end InteriorPoint

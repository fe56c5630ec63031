import InteriorPoint.Proofs.Kkt.Outcome
import InteriorPoint.Proofs.Linear.RealMatrix
import Mathlib.LinearAlgebra.Matrix.Block

/-!
# Block systems over the real numbers

A vector of `n + p` entries is a head and a tail, and the block matrix is `Matrix.fromBlocks` along
this splitting. So a solution of the block system solves its two rows of blocks
(`Block.assemble_mulVec_eq_iff`), and both matrices are singular together (`Block.det_assemble`).

Refinement never leaves an exact solution, because its residual is zero (`refine_of_mulVec_eq`).
-/

open Matrix

namespace InteriorPoint

open Exact

variable {n p : ℕ}

/-! ## Settings -/

/-- **The valid settings**: the regularization is a real number and not negative, and the tolerance
is a positive one. -/
theorem Settings.validate_eq_ok_iff_exists {α : Type} [Scalar α] [Exact α] {s : Settings α} :
    s.validate = .ok () ↔ ∃ ε τ : ℝ, s.regularization = real ε ∧ s.pivotTolerance = real τ ∧
      0 ≤ ε ∧ 0 < τ := by
  rw [validate_eq_ok_iff_checks, isFinite_iff, isFinite_iff]
  constructor
  · rintro ⟨⟨⟨ε, hε⟩, hnonneg⟩, ⟨τ, hτ⟩, hpos⟩
    rw [hε, real_lt_zero, not_lt] at hnonneg
    rw [hτ, real_le_zero, not_le] at hpos
    exact ⟨ε, τ, hε, hτ, hnonneg, hpos⟩
  · rintro ⟨ε, τ, hε, hτ, hnonneg, hpos⟩
    rw [hε, hτ, real_lt_zero, real_le_zero, not_lt, not_le]
    exact ⟨⟨⟨ε, rfl⟩, hnonneg⟩, ⟨τ, rfl⟩, hpos⟩

/-- The default settings are valid. -/
theorem Settings.validate_default {α : Type} [Scalar α] [Exact α] :
    ({} : Settings α).validate = .ok () :=
  validate_eq_ok_iff_exists.mpr ⟨0, _, real_zero.symm, tenth_real 13, le_rfl, by positivity⟩

/-- The valid settings over the real numbers. -/
theorem Settings.validate_eq_ok_iff (s : Settings ℝ) :
    s.validate = .ok () ↔ 0 ≤ s.regularization ∧ 0 < s.pivotTolerance := by
  rw [validate_eq_ok_iff_exists]
  constructor
  · rintro ⟨ε, τ, hε, hτ, hnonneg, hpos⟩
    rw [hε, hτ]
    exact ⟨hnonneg, hpos⟩
  · rintro ⟨hnonneg, hpos⟩
    exact ⟨_, _, rfl, rfl, hnonneg, hpos⟩

/-! ## Refinement -/

/-- **Refinement leaves an exact solution alone**, in any number of steps. -/
theorem refine_of_mulVec_eq {M : Mat ℝ n n} {b x : Vec ℝ n} (hx : M.toMatrix *ᵥ x.get = b.get)
    (solve : Vec ℝ n → Option (Vec ℝ n)) (steps : ℕ) : refine M b solve steps x = x := by
  cases steps with
  | zero => rfl
  | succ steps =>
    have hresidual : Vec.norm (Vec.sub b (Mat.mulVec M x)) = 0 := by
      rw [Vec.norm_eq_zero_iff, Vec.get_sub_eq, Mat.get_mulVec_eq, hx, sub_self]
    exact if_pos ((Scalar.beq_iff _ _).mpr hresidual)

/-- **If a solve multiplies a residual by a matrix, refinement by `k` steps multiplies it by the
`k`-th power**, whether or not it ends early. -/
theorem residual_refine {H : Mat ℝ n n} {b : Vec ℝ n} {solve : Vec ℝ n → Option (Vec ℝ n)}
    {E : Matrix (Fin n) (Fin n) ℝ}
    (hsolve : ∀ r, ∃ d, solve r = some d ∧ r.get - H.toMatrix *ᵥ d.get = E *ᵥ r.get) (k : ℕ)
    (x : Vec ℝ n) :
    b.get - H.toMatrix *ᵥ (refine H b solve k x).get
      = E ^ k *ᵥ (b.get - H.toMatrix *ᵥ x.get) := by
  induction k generalizing x with
  | zero => rw [refine, pow_zero, one_mulVec]
  | succ k ih =>
    have hresidual : (Vec.sub b (Mat.mulVec H x)).get = b.get - H.toMatrix *ᵥ x.get := by
      rw [Vec.get_sub_eq, Mat.get_mulVec_eq]
    rw [refine]
    split_ifs with hzero
    · -- a residual that is zero stays zero
      have hzero := (Vec.norm_eq_zero_iff _).mp ((Scalar.beq_iff _ _).mp hzero)
      rw [← hresidual, hzero, mulVec_zero]
    · obtain ⟨d, hd, hleft⟩ := hsolve (Vec.sub b (Mat.mulVec H x))
      simp only [hd]
      rw [ih, Vec.get_add_eq, mulVec_add, ← sub_sub, ← hresidual, hleft, mulVec_mulVec, ← pow_succ]

/-- **What a solve with another matrix leaves** of a residual. -/
theorem sub_mulVec_of_mulVec_eq {K M : Matrix (Fin n) (Fin n) ℝ} (hM : IsUnit M.det)
    {d r : Fin n → ℝ} (hd : M *ᵥ d = r) : r - K *ᵥ d = ((M - K) * M⁻¹) *ᵥ r := by
  have hinverse : M⁻¹ *ᵥ r = d := by
    rw [← hd, mulVec_mulVec, Matrix.nonsing_inv_mul _ hM, one_mulVec]
  rw [← mulVec_mulVec, hinverse, sub_mulVec, hd]

/-- **The residual of a refined solution** whose steps are solved with another matrix: the first
solve and each of the `k` steps leave as much. -/
theorem residual_refine_of_mulVec_eq {K : Mat ℝ n n} {M : Matrix (Fin n) (Fin n) ℝ}
    (hM : IsUnit M.det) {solve : Vec ℝ n → Option (Vec ℝ n)}
    (hsolve : ∀ r, ∃ d, solve r = some d ∧ M *ᵥ d.get = r.get) {b x : Vec ℝ n}
    (hx : solve b = some x) (k : ℕ) :
    b.get - K.toMatrix *ᵥ (refine K b solve k x).get
      = ((M - K.toMatrix) * M⁻¹) ^ (k + 1) *ᵥ b.get := by
  have hleft : ∀ r, ∃ d, solve r = some d ∧
      r.get - K.toMatrix *ᵥ d.get = ((M - K.toMatrix) * M⁻¹) *ᵥ r.get := by
    intro r
    obtain ⟨d, hd, hMd⟩ := hsolve r
    exact ⟨d, hd, sub_mulVec_of_mulVec_eq hM hMd⟩
  obtain ⟨d, hd, hfirst⟩ := hleft b
  obtain rfl := Option.some.inj (hx.symm.trans hd)
  rw [residual_refine hleft, hfirst, mulVec_mulVec, ← pow_succ]

namespace Block

/-! ## Blocks -/

@[simp] theorem get_head {α : Type} (x : Vec α (n + p)) (i : Fin n) :
    (head x).get i = x.get (i.castAdd p) :=
  Vec.get_ofFn _ i

@[simp] theorem get_tail {α : Type} (x : Vec α (n + p)) (i : Fin p) :
    (tail x).get i = x.get (i.natAdd n) :=
  Vec.get_ofFn _ i

theorem append_eq_append_iff {a c : Fin n → ℝ} {b d : Fin p → ℝ} :
    Fin.append a b = Fin.append c d ↔ a = c ∧ b = d :=
  ((Fin.appendEquiv n p).injective.eq_iff (a := (a, b)) (b := (c, d))).trans Prod.mk_inj

/-- The inner product, part by part. -/
theorem append_dotProduct_append (a c : Fin n → ℝ) (b d : Fin p → ℝ) :
    Fin.append a b ⬝ᵥ Fin.append c d = a ⬝ᵥ c + b ⬝ᵥ d := by
  simp [dotProduct, Fin.sum_univ_add]

/-- The right-hand side, in its two parts. -/
theorem rightSide_castAdd {α : Type} [Scalar α] (g : Vec α n) (r : Vec α p) (i : Fin n) :
    (rightSide g r).get (i.castAdd p) = -g.get i := by
  unfold rightSide
  rw [Vec.get_neg]
  exact congrArg Neg.neg (Vector.getElem_append_left i.isLt)

theorem rightSide_natAdd {α : Type} [Scalar α] (g : Vec α n) (r : Vec α p) (i : Fin p) :
    (rightSide g r).get (i.natAdd n) = -r.get i := by
  unfold rightSide
  rw [Vec.get_neg]
  refine congrArg Neg.neg ((Vector.getElem_append_right (i.natAdd n).isLt ?_).trans ?_)
  · exact Nat.le_add_right n i
  · simp only [Fin.natAdd, Nat.add_sub_cancel_left]
    rfl

theorem get_rightSide (g : Vec ℝ n) (r : Vec ℝ p) :
    (rightSide g r).get = Fin.append (-g.get) (-r.get) := by
  funext i
  refine Fin.addCases (fun i => ?_) (fun i => ?_) i
  · rw [rightSide_castAdd, Fin.append_left, Pi.neg_apply]
  · rw [rightSide_natAdd, Fin.append_right, Pi.neg_apply]

/-- The block matrix of linear algebra. -/
theorem toMatrix_assemble (H : Mat ℝ n n) (A : Mat ℝ p n) (T : Mat ℝ n p) :
    (assemble H A T).toMatrix = Matrix.reindex finSumFinEquiv finSumFinEquiv
      (Matrix.fromBlocks H.toMatrix T.toMatrix A.toMatrix 0) := by
  ext i j
  rw [Mat.toMatrix_apply, Matrix.reindex_apply, Matrix.submatrix_apply]
  refine Fin.addCases (fun i => ?_) (fun i => ?_) i <;>
    refine Fin.addCases (fun j => ?_) (fun j => ?_) j <;> simp

/-- Both are singular together. -/
theorem det_assemble (H : Mat ℝ n n) (A : Mat ℝ p n) (T : Mat ℝ n p) :
    (assemble H A T).toMatrix.det
      = (Matrix.fromBlocks H.toMatrix T.toMatrix A.toMatrix 0).det := by
  rw [toMatrix_assemble, Matrix.det_reindex_self]

/-- **The product with a block matrix**, in its two parts. -/
theorem assemble_mulVec (H : Mat ℝ n n) (A : Mat ℝ p n) (T : Mat ℝ n p) (x : Vec ℝ (n + p)) :
    (assemble H A T).toMatrix *ᵥ x.get
      = Fin.append (H.toMatrix *ᵥ (head x).get + T.toMatrix *ᵥ (tail x).get)
          (A.toMatrix *ᵥ (head x).get) := by
  funext i
  refine Fin.addCases (fun i => ?_) (fun i => ?_) i
  · rw [Fin.append_left]
    simp [Matrix.mulVec, dotProduct, Fin.sum_univ_add]
  · rw [Fin.append_right]
    simp [Matrix.mulVec, dotProduct, Fin.sum_univ_add]

/-- **A block system is its two rows of blocks.** -/
theorem assemble_mulVec_eq_iff (H : Mat ℝ n n) (A : Mat ℝ p n) (T : Mat ℝ n p) (g : Vec ℝ n)
    (r : Vec ℝ p) (x : Vec ℝ (n + p)) :
    (assemble H A T).toMatrix *ᵥ x.get = (rightSide g r).get ↔
      H.toMatrix *ᵥ (head x).get + T.toMatrix *ᵥ (tail x).get = -g.get ∧
        A.toMatrix *ᵥ (head x).get = -r.get := by
  rw [assemble_mulVec, get_rightSide, append_eq_append_iff]

/-- Without regularization, the matrix is the one that is handed in. -/
theorem regularize_zero (K : Mat ℝ (n + p) (n + p)) : regularize 0 K = K := if_neg (lt_irrefl _)

/-- The regularized Hessian. -/
theorem toMatrix_shiftDiagonal (ε : ℝ) (H : Mat ℝ n n) :
    (shiftDiagonal ε H).toMatrix = H.toMatrix + ε • 1 := by
  ext i j
  unfold shiftDiagonal
  rw [Mat.toMatrix_of, Matrix.of_apply, Matrix.add_apply, Matrix.smul_apply,
    Matrix.one_apply, smul_eq_mul, mul_ite, mul_one, mul_zero, Mat.toMatrix_apply]
  split_ifs
  · rfl
  · rw [add_zero]

end Block

end InteriorPoint

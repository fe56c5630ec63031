import InteriorPoint.Proofs.Kkt.BlockSystem

/-!
# Refinement as a matrix

A solve with the factors of `M` multiplies a right-hand side by `M⁻¹`, and of a residual of `K` it
leaves `E = (M − K)·M⁻¹` times as much. So the solution of `K·x = b` that `k` solves have got to is

  `M⁻¹·(1 + E + ⋯ + Eᵏ⁻¹)·b`

a matrix times the right-hand side (`refinedInverse`), whatever the right-hand side is. This is more
than the residual says, since `K` may be singular.

Refinement stops where it meets a residual that is zero, and for different right-hand sides it does
so at different steps. What the steps that are left out would have added is zero, and refinement
that makes all of them comes to the same solution (`refine_eq_refineThroughout`).
-/

open Matrix

namespace InteriorPoint

variable {n : ℕ}

/-! ## The matrix -/

/-- **What `k` solves make of a right-hand side**: the first solve with `M`, and `k - 1` steps of
refinement against `K`. -/
noncomputable def refinedInverse (M K : Matrix (Fin n) (Fin n) ℝ) (k : ℕ) :
    Matrix (Fin n) (Fin n) ℝ :=
  M⁻¹ * ∑ i ∈ Finset.range k, ((M - K) * M⁻¹) ^ i

variable {M : Matrix (Fin n) (Fin n) ℝ}

@[simp] theorem refinedInverse_zero (M K : Matrix (Fin n) (Fin n) ℝ) :
    refinedInverse M K 0 = 0 := by
  rw [refinedInverse, Finset.sum_range_zero, Matrix.mul_zero]

/-- One more solve: the first one, and the others for what it leaves. -/
theorem refinedInverse_succ (M K : Matrix (Fin n) (Fin n) ℝ) (k : ℕ) :
    refinedInverse M K (k + 1) = M⁻¹ + refinedInverse M K k * ((M - K) * M⁻¹) := by
  simp only [refinedInverse, Finset.sum_range_succ', pow_succ, pow_zero, Matrix.mul_add,
    Matrix.mul_one, Matrix.mul_assoc, Finset.sum_mul]
  exact add_comm _ _

/-- **The matrix against another unit**: what is solved for is the inverse multiple. -/
theorem refinedInverse_smul (hM : IsUnit M.det) (K : Matrix (Fin n) (Fin n) ℝ) {c : ℝ} (hc : c ≠ 0)
    (k : ℕ) : refinedInverse (c • M) (c • K) k = c⁻¹ • refinedInverse M K k := by
  have hinverse : (c • M)⁻¹ = c⁻¹ • M⁻¹ := Matrix.inv_smul' M (Units.mk0 c hc) hM
  have hleft : (c • M - c • K) * (c • M)⁻¹ = (M - K) * M⁻¹ := by
    rw [hinverse, ← smul_sub, Matrix.smul_mul, Matrix.mul_smul, smul_smul, mul_inv_cancel₀ hc,
      one_smul]
  rw [refinedInverse, hleft, hinverse, Matrix.smul_mul, refinedInverse]

/-! ## What refinement comes to -/

/-- The solution of a system whose matrix is not singular. -/
theorem inv_mulVec_of_mulVec_eq (hM : IsUnit M.det) {d r : Fin n → ℝ} (hd : M *ᵥ d = r) :
    M⁻¹ *ᵥ r = d := by
  rw [← hd, mulVec_mulVec, Matrix.nonsing_inv_mul _ hM, one_mulVec]

section Refine

variable {K : Mat ℝ n n} {b : Vec ℝ n} {solve : Vec ℝ n → Option (Vec ℝ n)} (hM : IsUnit M.det)
  (hsolve : ∀ r, ∃ d, solve r = some d ∧ M *ᵥ d.get = r.get)

include hM hsolve

/-- **Refinement adds to a solution** what as many solves make of its residual. -/
theorem get_refine (k : ℕ) (x : Vec ℝ n) :
    (refine K b solve k x).get
      = x.get + refinedInverse M K.toMatrix k *ᵥ (b.get - K.toMatrix *ᵥ x.get) := by
  induction k generalizing x with
  | zero => rw [refine, refinedInverse_zero, zero_mulVec, add_zero]
  | succ k ih =>
    have hresidual : (Vec.sub b (Mat.mulVec K x)).get = b.get - K.toMatrix *ᵥ x.get := by
      rw [Vec.get_sub_eq, Mat.get_mulVec_eq]
    rw [refine, ← hresidual]
    split_ifs with hzero
    · have hzero := (Vec.norm_eq_zero_iff _).mp ((Scalar.beq_iff _ _).mp hzero)
      rw [hzero, mulVec_zero, add_zero]
    · obtain ⟨d, hd, hMd⟩ := hsolve (Vec.sub b (Mat.mulVec K x))
      simp only [hd]
      rw [ih, Vec.get_add_eq, mulVec_add, ← sub_sub, ← hresidual, sub_mulVec_of_mulVec_eq hM hMd,
        refinedInverse_succ, add_mulVec, inv_mulVec_of_mulVec_eq hM hMd, mulVec_mulVec, add_assoc]

/-- **The refined solution** is a matrix times the right-hand side. -/
theorem get_refine_of_solve {x : Vec ℝ n} (hx : solve b = some x) (k : ℕ) :
    (refine K b solve k x).get = refinedInverse M K.toMatrix (k + 1) *ᵥ b.get := by
  obtain ⟨d, hd, hMd⟩ := hsolve b
  obtain rfl := Option.some.inj (hx.symm.trans hd)
  rw [get_refine hM hsolve, sub_mulVec_of_mulVec_eq hM hMd, refinedInverse_succ, add_mulVec,
    inv_mulVec_of_mulVec_eq hM hMd, mulVec_mulVec]

end Refine

/-! ## The early end -/

/-- **Refinement that makes all its steps**, also where a residual is zero. -/
def refineThroughout {α : Type} [Scalar α] (K : Mat α n n) (b : Vec α n)
    (solve : Vec α n → Option (Vec α n)) : (steps : ℕ) → (x : Vec α n) → Vec α n
  | 0, x => x
  | steps + 1, x =>
    match solve (Vec.sub b (Mat.mulVec K x)) with
    | some d => refineThroughout K b solve steps (Vec.add x d)
    | none => x

/-- **The early end does not change the result.** -/
theorem refine_eq_refineThroughout {K : Mat ℝ n n} {b : Vec ℝ n}
    {solve : Vec ℝ n → Option (Vec ℝ n)} (hM : IsUnit M.det)
    (hsolve : ∀ r, ∃ d, solve r = some d ∧ M *ᵥ d.get = r.get) (k : ℕ) (x : Vec ℝ n) :
    refine K b solve k x = refineThroughout K b solve k x := by
  induction k generalizing x with
  | zero => rfl
  | succ k ih =>
    obtain ⟨d, hd, hMd⟩ := hsolve (Vec.sub b (Mat.mulVec K x))
    rw [refine, refineThroughout]
    simp only [hd, ← ih]
    split_ifs with hzero
    · -- the step that is left out would add the solution of a system with right-hand side zero
      have hzero := (Vec.norm_eq_zero_iff _).mp ((Scalar.beq_iff _ _).mp hzero)
      have hadd : Vec.add x d = x := by
        refine Vec.ext_get fun i => ?_
        rw [Vec.get_add, ← inv_mulVec_of_mulVec_eq hM hMd, hzero, mulVec_zero, Pi.zero_apply,
          add_zero]
      have hexact : K.toMatrix *ᵥ x.get = b.get := by
        rw [Vec.get_sub_eq, Mat.get_mulVec_eq, sub_eq_zero] at hzero
        exact hzero.symm
      rw [hadd, refine_of_mulVec_eq hexact]
    · rfl

end InteriorPoint

import InteriorPoint.Proofs.Kkt.NewtonStep

/-!
# Refined steps

With the factors of `M = H + ε·1` every step of refinement multiplies the residual by `ε·M⁻¹`, so
after `k` steps the residual of the solution of `H·x = b` is `(ε·M⁻¹)ᵏ⁺¹·b` (`Refined`). Without
regularization it vanishes. With it, what a step adds to the solution is `M⁻¹` times the residual, a
positive semidefinite matrix times `b`; so the inner product with `b` starts positive and never goes
down, and a reduced step is a direction of descent in any case (`Refined.dotProduct_neg`).
-/

open Matrix

namespace InteriorPoint

variable {n : ℕ}

/-- **What a step of refinement keeps, refinement keeps.** -/
theorem refine_induction {α : Type} [Scalar α] {M : Mat α n n} {b : Vec α n}
    {solve : Vec α n → Option (Vec α n)} {P : Vec α n → Prop}
    (hstep : ∀ x d, P x → solve (Vec.sub b (Mat.mulVec M x)) = some d → P (Vec.add x d))
    (steps : ℕ) {x : Vec α n} (hx : P x) : P (refine M b solve steps x) := by
  induction steps generalizing x with
  | zero => exact hx
  | succ steps ih =>
    rw [refine]
    split_ifs
    · exact hx
    · cases hd : solve (Vec.sub b (Mat.mulVec M x)) with
      | none => exact hx
      | some d => exact ih (hstep x d hx hd)

/-! ## The residual -/

/-- **A refined solution** of `H·x = b` by the factors of `H + ε·1`. -/
structure Refined (H : Matrix (Fin n) (Fin n) ℝ) (ε : ℝ) (b x : Fin n → ℝ) : Prop where
  /-- The residual after some steps. -/
  residual : ∃ k : ℕ, b - H *ᵥ x = (ε • (H + ε • 1)⁻¹) ^ (k + 1) *ᵥ b
  /-- The solution goes along with the right-hand side. -/
  ascent : b ≠ 0 → 0 < b ⬝ᵥ x

namespace Refined

variable {H : Matrix (Fin n) (Fin n) ℝ} {ε : ℝ} {b x : Fin n → ℝ}

/-- What the regularized inverse leaves of a vector. -/
theorem sub_mulVec_inv (hM : (H + ε • 1).PosDef) (r : Fin n → ℝ) :
    r - H *ᵥ (H + ε • 1)⁻¹ *ᵥ r = (ε • (H + ε • 1)⁻¹) *ᵥ r := by
  have hdet : IsUnit (H + ε • 1).det := (Matrix.isUnit_iff_isUnit_det _).mp hM.isUnit
  have hinverse := Matrix.mul_nonsing_inv _ hdet
  rw [Matrix.add_mul, Matrix.smul_mul, Matrix.one_mul] at hinverse
  rw [mulVec_mulVec, sub_eq_iff_eq_add', ← add_mulVec, hinverse, one_mulVec]

/-- The solution of the regularized system is one after no steps. -/
theorem start (hM : (H + ε • 1).PosDef) (b : Fin n → ℝ) :
    Refined H ε b ((H + ε • 1)⁻¹ *ᵥ b) where
  residual := ⟨0, by rw [sub_mulVec_inv hM, zero_add, pow_one]⟩
  ascent hb := hM.inv.dotProduct_mulVec_pos hb

/-- One more step of refinement. -/
theorem step (hM : (H + ε • 1).PosDef) (hε : 0 ≤ ε) (hx : Refined H ε b x) :
    Refined H ε b (x + (H + ε • 1)⁻¹ *ᵥ (b - H *ᵥ x)) := by
  obtain ⟨k, hk⟩ := hx.residual
  refine ⟨⟨k + 1, ?_⟩, fun hb => ?_⟩
  · rw [mulVec_add, ← sub_sub, sub_mulVec_inv hM, hk, mulVec_mulVec, ← pow_succ']
  · have hpower : ((H + ε • 1)⁻¹ * (ε • (H + ε • 1)⁻¹) ^ (k + 1)).PosSemidef := by
      rw [smul_pow, Matrix.mul_smul, ← pow_succ']
      exact (hM.inv.posSemidef.pow (k + 1 + 1)).smul (pow_nonneg hε (k + 1))
    rw [hk, mulVec_mulVec, dotProduct_add]
    exact add_pos_of_pos_of_nonneg (hx.ascent hb) (hpower.dotProduct_mulVec_nonneg b)

/-- **Without regularization** a refined solution is exact. -/
theorem mulVec_eq (hx : Refined H 0 b x) : H *ᵥ x = b := by
  obtain ⟨k, hk⟩ := hx.residual
  rw [zero_smul, zero_pow (Nat.succ_ne_zero k), zero_mulVec] at hk
  exact (sub_eq_zero.mp hk).symm

/-- **A refined solution against a gradient** is a direction of descent, whatever the
regularization. -/
theorem dotProduct_neg {g : Fin n → ℝ} (hx : Refined H ε (-g) x) (hg : g ≠ 0) : g ⬝ᵥ x < 0 := by
  have hascent := hx.ascent (neg_ne_zero.mpr hg)
  rwa [neg_dotProduct, neg_pos] at hascent

end Refined

namespace Solver

/-! ## Reduced steps -/

/-- **The residual of a reduced step**, of any Hessian `H`: the lower triangle of `H + ε·1` is that
of a positive definite matrix `M`, and the step leaves `((M − H)·M⁻¹)ᵏ⁺¹·g` after `k` steps of
refinement. -/
theorem residual_of_outcome_solveDense {s : Solver ℝ} {H : Mat ℝ n n} {g : Vec ℝ n}
    {step : Step ℝ n} (hstep : (s.solveDense H g).outcome = .ok step) :
    (Block.shiftDiagonal s.settings.regularization H).mirrored.PosDef ∧
      H.toMatrix *ᵥ step.v.get + g.get
        = (((Block.shiftDiagonal s.settings.regularization H).mirrored - H.toMatrix)
            * (Block.shiftDiagonal s.settings.regularization H).mirrored⁻¹)
          ^ (s.settings.refinements + 1) *ᵥ g.get := by
  obtain ⟨hM, F, hF, hok⟩ | ⟨-, hrefuse⟩ := s.outcome_solveDense_cases H g
  · have hresidual := residual_refine_of_mulVec_eq (K := H)
      ((Matrix.isUnit_iff_isUnit_det _).mp hM.isUnit)
      (fun r => ⟨_, rfl, Cholesky.mirrored_mulVec_solve hF r⟩) (b := Vec.neg g) rfl
      s.settings.refinements
    rw [Vec.get_neg_eq, mulVec_neg, ← neg_add', neg_inj, add_comm] at hresidual
    rw [← Except.ok.inj (hok.symm.trans hstep)]
    exact ⟨hM, hresidual⟩
  · exact nomatch hrefuse.symm.trans hstep

/-- **A reduced step is refined.** -/
theorem refined_of_outcome_solveDense {s : Solver ℝ} (hvalid : s.settings.validate = .ok ())
    {H : Mat ℝ n n} (hH : H.toMatrix.IsSymm) {g : Vec ℝ n} {step : Step ℝ n}
    (hstep : (s.solveDense H g).outcome = .ok step) :
    step = reducedStep g step.v ∧
      Refined H.toMatrix s.settings.regularization (-g.get) step.v.get := by
  obtain ⟨hM, F, hF, hok⟩ | ⟨-, hrefuse⟩ := s.outcome_solveDense_cases H g
  · rw [mirrored_shiftDiagonal hH] at hM
    have hdet : IsUnit (H.toMatrix + s.settings.regularization • 1).det :=
      (Matrix.isUnit_iff_isUnit_det _).mp hM.isUnit
    have hsolve : ∀ b, (F.solve b).get
        = (H.toMatrix + s.settings.regularization • 1)⁻¹ *ᵥ b.get := by
      intro b
      have h := Cholesky.mirrored_mulVec_solve hF b
      rw [mirrored_shiftDiagonal hH] at h
      rw [← h, mulVec_mulVec, Matrix.nonsing_inv_mul _ hdet, one_mulVec]
    rw [← Except.ok.inj (hok.symm.trans hstep)]
    refine ⟨rfl, ?_⟩
    have hreg := ((Settings.validate_eq_ok_iff _).mp hvalid).1
    refine refine_induction (P := fun x => Refined H.toMatrix _ (-g.get) x.get)
      (fun x d hx hd => ?_) _ ?_
    · rw [← Option.some.inj hd, Vec.get_add_eq, hsolve, Vec.get_sub_eq, Mat.get_mulVec_eq,
        Vec.get_neg_eq]
      exact hx.step hM hreg
    · rw [hsolve, Vec.get_neg_eq]
      exact .start hM _
  · exact nomatch hrefuse.symm.trans hstep

/-- **Without regularization** there is a reduced step exactly for a positive definite Hessian, and
it is the solution. -/
theorem outcome_solveDense_eq_ok_iff {s : Solver ℝ} (hvalid : s.settings.validate = .ok ())
    (hreg : s.settings.regularization = 0) {H : Mat ℝ n n} (hH : H.toMatrix.IsSymm)
    {g v : Vec ℝ n} :
    (s.solveDense H g).outcome = .ok (reducedStep g v) ↔
      H.toMatrix.PosDef ∧ H.toMatrix *ᵥ v.get = -g.get := by
  have hsolves : ∀ v, (s.solveDense H g).outcome = .ok (reducedStep g v) →
      H.toMatrix *ᵥ v.get = -g.get := by
    intro v hstep
    have hrefined := (refined_of_outcome_solveDense hvalid hH hstep).2
    rw [hreg] at hrefined
    exact hrefined.mulVec_eq
  have hcases := s.outcome_solveDense_cases H g
  rw [mirrored_shiftDiagonal hH, hreg, zero_smul, add_zero] at hcases
  obtain ⟨hposDef, F, -, hok⟩ | ⟨hposDef, hrefuse⟩ := hcases
  · refine ⟨fun hstep => ⟨hposDef, hsolves v hstep⟩, fun ⟨_, hv⟩ => ?_⟩
    have hinjective := Matrix.mulVec_injective_of_isUnit hposDef.isUnit
    rw [hok, Vec.ext_get (congrFun (hinjective ((hsolves _ hok).trans hv.symm)))]
  · exact iff_of_false (fun h => nomatch hrefuse.symm.trans h) fun h => hposDef h.1

/-- **Without regularization** the squared decrement of a reduced step is the curvature along it. -/
theorem decrementSquared_of_outcome_solveDense {s : Solver ℝ}
    (hvalid : s.settings.validate = .ok ()) (hreg : s.settings.regularization = 0) {H : Mat ℝ n n}
    (hH : H.toMatrix.IsSymm) {g : Vec ℝ n} {step : Step ℝ n}
    (hstep : (s.solveDense H g).outcome = .ok step) :
    step.decrementSquared = step.v.get ⬝ᵥ H.toMatrix *ᵥ step.v.get := by
  obtain ⟨heq, hrefined⟩ := refined_of_outcome_solveDense hvalid hH hstep
  rw [hreg] at hrefined
  have hdecrement : step.decrementSquared = -Vec.dot g step.v := congrArg Step.decrementSquared heq
  rw [hdecrement, Vec.dot_eq, hrefined.mulVec_eq, dotProduct_neg, dotProduct_comm]

end Solver

end InteriorPoint

import InteriorPoint.Proofs.Kkt.ReducedStep

/-!
# What refinement makes of a reduced step

A reduced solve factors `M = H + ε·1` and takes its residuals of `H`, so every solve multiplies the
residual by `E = ε·M⁻¹`. If the curvature of `H` is at least `μ > 0` in every direction, that of `M`
is at least `μ + ε`, and `E` shortens every vector at least by the factor `ε/(μ + ε)`. So the
residual of `H·v = -g` after `k` steps of refinement is at most the length of `g` times the
`k + 1`-st power of this factor (`refinement_rate_law`).

Nothing of the kind holds if `H` is not definite: `E` may then stretch, and refinement makes the
residual larger with every step. But `M⁻¹·Eᵏ` is positive semidefinite in any case, so that no step
of refinement turns a direction of descent around (`reduced_descent_law`).
-/

open Matrix

namespace InteriorPoint

variable {n : ℕ}

/-! ## The rate -/

section Rate

variable {H : Matrix (Fin n) (Fin n) ℝ} {μ : ℝ}

/-- What is added to the diagonal, the curvature gains. -/
theorem le_dotProduct_add_smul_mulVec (hcurvature : ∀ x, μ * (x ⬝ᵥ x) ≤ x ⬝ᵥ H *ᵥ x) (ε : ℝ)
    (x : Fin n → ℝ) : (μ + ε) * (x ⬝ᵥ x) ≤ x ⬝ᵥ (H + ε • 1) *ᵥ x := by
  rw [add_mulVec, smul_mulVec, one_mulVec, dotProduct_add, dotProduct_smul, smul_eq_mul, add_mul]
  exact add_le_add_left (hcurvature x) _

variable (hμ : 0 < μ) (hcurvature : ∀ x, μ * (x ⬝ᵥ x) ≤ x ⬝ᵥ H *ᵥ x) {ε : ℝ} (hε : 0 ≤ ε)

include hμ hcurvature hε

/-- A regularized Hessian with curvature in every direction is positive definite. -/
theorem posDef_add_smul (hH : H.IsSymm) : (H + ε • 1).PosDef := by
  have hsymm : (H + ε • 1).IsSymm := hH.add (Matrix.isSymm_one.smul ε)
  refine Matrix.PosDef.of_dotProduct_mulVec_pos
    (Matrix.isHermitian_iff_isSymm.mpr hsymm) fun {x} hx => ?_
  have hsquare : 0 < x ⬝ᵥ x := dotProduct_star_self_pos_iff.mpr hx
  calc 0 < (μ + ε) * (x ⬝ᵥ x) := mul_pos (add_pos_of_pos_of_nonneg hμ hε) hsquare
    _ ≤ x ⬝ᵥ (H + ε • 1) *ᵥ x := le_dotProduct_add_smul_mulVec hcurvature ε x

/-- **What a solve leaves is shorter** by the part of the regularization in the curvature. -/
theorem smul_inv_mulVec_dotProduct_self_le (hH : H.IsSymm) (r : Fin n → ℝ) :
    (ε • (H + ε • 1)⁻¹) *ᵥ r ⬝ᵥ (ε • (H + ε • 1)⁻¹) *ᵥ r
      ≤ (ε / (μ + ε)) ^ 2 * (r ⬝ᵥ r) := by
  have hsum : 0 < μ + ε := add_pos_of_pos_of_nonneg hμ hε
  have hdet : IsUnit (H + ε • 1).det := (Matrix.isUnit_iff_isUnit_det _).mp
    (posDef_add_smul hμ hcurvature hε hH).isUnit
  -- the solution of the regularized system, whose image is the residual
  obtain ⟨z, rfl⟩ : ∃ z, (H + ε • 1) *ᵥ z = r :=
    ⟨(H + ε • 1)⁻¹ *ᵥ r, by rw [mulVec_mulVec, Matrix.mul_nonsing_inv _ hdet, one_mulVec]⟩
  have hlong := Mat.le_mulVec_dotProduct_self hsum.le
    (le_dotProduct_add_smul_mulVec hcurvature ε z)
  rw [smul_mulVec, mulVec_mulVec, Matrix.nonsing_inv_mul _ hdet, one_mulVec, smul_dotProduct,
    dotProduct_smul, smul_eq_mul, smul_eq_mul]
  calc ε * (ε * (z ⬝ᵥ z)) = (ε / (μ + ε)) ^ 2 * ((μ + ε) ^ 2 * (z ⬝ᵥ z)) := by field_simp
    _ ≤ _ := mul_le_mul_of_nonneg_left hlong (sq_nonneg _)

end Rate

/-- **The law of the rate of refinement.** For a symmetric Hessian whose curvature is at least `μ`
in every direction there is a step, and after `k` steps of refinement the norm of its residual is at
most `(ε / (μ + ε))ᵏ⁺¹` times that of the gradient. -/
theorem refinement_rate_law (s : Solver ℝ) (hvalid : s.settings.validate = .ok ()) (hn : 0 < n)
    (H : Mat ℝ n n) (hH : H.toMatrix.IsSymm) (μ : ℝ) (hμ : 0 < μ)
    (hcurvature : ∀ x, μ * (x ⬝ᵥ x) ≤ x ⬝ᵥ H.toMatrix *ᵥ x) (g : Vec ℝ n) :
    ∃ step, (s.solveReduced (.ofMat H) g).outcome = .ok step ∧
      Mat.residualNorm H step.v (Vec.neg g)
        ≤ (s.settings.regularization / (μ + s.settings.regularization))
            ^ (s.settings.refinements + 1) * Vec.norm g := by
  have hreg := ((Settings.validate_eq_ok_iff _).mp hvalid).1
  have hposDef := posDef_add_smul hμ hcurvature hreg hH
  obtain ⟨step, hstep⟩ := Solver.exists_outcome_solveDense hH hposDef g
  refine ⟨step, (Solver.outcome_solveReduced hvalid hn.ne' H g).trans hstep, ?_⟩
  have hresidual := (Solver.residual_of_outcome_solveDense hstep).2
  rw [Solver.mirrored_shiftDiagonal hH, add_sub_cancel_left, Matrix.smul_mul, Matrix.one_mul]
    at hresidual
  have hsquare : 0 ≤ g.get ⬝ᵥ g.get := dotProduct_star_self_nonneg g.get
  rw [Mat.residualNorm_neg, hresidual, Vec.norm_eq, Real.sqrt_le_left (by positivity), mul_pow,
    Real.sq_sqrt hsquare, ← pow_mul, mul_comm _ 2, pow_mul]
  exact Mat.pow_mulVec_dotProduct_self_le (sq_nonneg _)
    (smul_inv_mulVec_dotProduct_self_le hμ hcurvature hreg hH) _ _

/-- The law for a Hessian with the eigenvalues one and three: three solves leave an eighth. -/
theorem refinement_rate_law_coupled :
    Solver.shifted.settings.validate = .ok () ∧
    (Mat.toMatrix (#v[#v[2, 1], #v[1, 2]] : Mat ℝ 2 2)).IsSymm ∧
    (∀ x : Fin 2 → ℝ,
      1 * (x ⬝ᵥ x) ≤ x ⬝ᵥ Mat.toMatrix (#v[#v[2, 1], #v[1, 2]] : Mat ℝ 2 2) *ᵥ x) ∧
    ∃ step : Step ℝ 2, (Solver.shifted.solveReduced (.ofMat #v[#v[2, 1], #v[1, 2]])
        #v[3, 4]).outcome = .ok step ∧
      Mat.residualNorm #v[#v[2, 1], #v[1, 2]] step.v (Vec.neg #v[3, 4]) ≤ 5 / 8 := by
  have hmatrix : Mat.toMatrix (#v[#v[2, 1], #v[1, 2]] : Mat ℝ 2 2) = !![2, 1; 1, 2] := by
    ext i j
    fin_cases i <;> fin_cases j <;> rfl
  have hsymm : (Mat.toMatrix (#v[#v[2, 1], #v[1, 2]] : Mat ℝ 2 2)).IsSymm := by
    refine Matrix.IsSymm.ext fun i j => ?_
    fin_cases i <;> fin_cases j <;> rfl
  have hcurvature : ∀ x : Fin 2 → ℝ,
      1 * (x ⬝ᵥ x) ≤ x ⬝ᵥ Mat.toMatrix (#v[#v[2, 1], #v[1, 2]] : Mat ℝ 2 2) *ᵥ x := by
    intro x
    rw [hmatrix]
    simp [Matrix.mulVec, dotProduct, Fin.sum_univ_two]
    linarith [sq_nonneg (x 0 + x 1)]
  obtain ⟨step, hstep, hrate⟩ := refinement_rate_law Solver.shifted Solver.validate_shifted two_pos
    #v[#v[2, 1], #v[1, 2]] hsymm 1 one_pos hcurvature #v[3, 4]
  have hnorm : Vec.norm (#v[3, 4] : Vec ℝ 2) = 5 := by
    rw [Vec.norm_eq, Real.sqrt_eq_iff_mul_self_eq_of_pos (by norm_num), dotProduct,
      Fin.sum_univ_two]
    show (5 : ℝ) * 5 = 3 * 3 + 4 * 4
    norm_num
  have hfactor : (Solver.shifted.settings.regularization
      / (1 + Solver.shifted.settings.regularization)) ^ (Solver.shifted.settings.refinements + 1)
        = (1 : ℝ) / 8 := by
    show ((1 : ℝ) / (1 + 1)) ^ 3 = 1 / 8
    norm_num
  rw [hfactor, hnorm] at hrate
  exact ⟨Solver.validate_shifted, hsymm, hcurvature, step, hstep, hrate.trans_eq (by norm_num)⟩

/-! ## Descent -/

/-- **The law of descent of a reduced step.** For a symmetric Hessian, definite or not, and whatever
the regularization and the number of refinement steps, the squared decrement of a step is the
descent along it. It is not negative, and zero only for a gradient that is zero. -/
theorem reduced_descent_law (s : Solver ℝ) (H : Mat ℝ n n) (hH : H.toMatrix.IsSymm) (g : Vec ℝ n)
    (step : Step ℝ n) (hstep : (s.solveReduced (.ofMat H) g).outcome = .ok step) :
    step.decrementSquared = -(g.get ⬝ᵥ step.v.get) ∧ 0 ≤ step.decrementSquared ∧
      (step.decrementSquared = 0 ↔ g.get = 0) := by
  obtain ⟨hvalid, -, H', hH', hdense⟩ := Solver.outcome_solveReduced_eq_ok.mp hstep
  obtain rfl := Dense.ofMat_inj hH'
  obtain ⟨heq, hrefined⟩ := Solver.refined_of_outcome_solveDense hvalid hH hdense
  have hdecrement : step.decrementSquared = -(g.get ⬝ᵥ step.v.get) := by
    rw [← Vec.dot_eq]
    exact congrArg Step.decrementSquared heq
  rw [hdecrement, neg_nonneg, neg_eq_zero]
  by_cases hg : g.get = 0
  · have hzero : g.get ⬝ᵥ step.v.get = 0 := by rw [hg, zero_dotProduct]
    exact ⟨rfl, hzero.le, iff_of_true hzero hg⟩
  · have hdescent := hrefined.dotProduct_neg hg
    exact ⟨rfl, hdescent.le, iff_of_false hdescent.ne hg⟩

/-- The law for a Hessian with negative curvature, of which every step of refinement doubles the
residual. -/
theorem reduced_descent_law_concave :
    (Mat.toMatrix (#v[#v[-1 / 2]] : Mat ℝ 1 1)).IsSymm ∧
    ∃ step : Step ℝ 1, (Solver.shifted.solveReduced (.ofMat #v[#v[-1 / 2]]) #v[1]).outcome
        = .ok step ∧
      0 < step.decrementSquared := by
  have hsymm : (Mat.toMatrix (#v[#v[-1 / 2]] : Mat ℝ 1 1)).IsSymm :=
    Matrix.IsSymm.ext fun i j => by rw [Subsingleton.elim i j]
  have hregularized : (Mat.toMatrix (#v[#v[-1 / 2]] : Mat ℝ 1 1)
      + Solver.shifted.settings.regularization • 1).PosDef := by
    have hhalf : Mat.toMatrix (#v[#v[-1 / 2]] : Mat ℝ 1 1)
        + Solver.shifted.settings.regularization • 1 = (1 / 2 : ℝ) • 1 := by
      ext i j
      rw [Subsingleton.elim i 0, Subsingleton.elim j 0]
      show (-1 / 2 : ℝ) + 1 * 1 = 1 / 2 * 1
      norm_num
    rw [hhalf]
    exact Matrix.PosDef.one.smul (by norm_num)
  obtain ⟨step, hstep⟩ := Solver.exists_outcome_solveDense hsymm hregularized #v[1]
  rw [← Solver.outcome_solveReduced Solver.validate_shifted one_ne_zero] at hstep
  obtain ⟨-, hnonneg, hzero⟩ := reduced_descent_law _ _ hsymm _ _ hstep
  refine ⟨hsymm, step, hstep, hnonneg.lt_of_ne' fun h => ?_⟩
  exact one_ne_zero (α := ℝ) (congrFun (hzero.mp h) 0)

end InteriorPoint

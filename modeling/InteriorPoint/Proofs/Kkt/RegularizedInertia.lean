import InteriorPoint.Proofs.Kkt.InertiaCheck
import Mathlib.LinearAlgebra.Prod

/-!
# What the inertia check means with regularization

A regularization `ε` makes the last block of the block matrix definite, and there is a square to
complete: at `(x, A·x/ε + w)` the form of the regularized matrix is

  `xᵀ·S·x − ε·wᵀ·w`  with  `S = H + ε·1 + AᵀA/ε`

So its signature is `(n, p)` exactly if `S` is positive definite
(`Block.posDef_regularizedSchur_iff`), whatever the rank of `A`. This is the condition that the
check decides (`regularized_inertia_check_law`). It is weaker than the one without regularization:
dependent equations pass, and so does a Hessian that is negative on their null space by less
than `ε`.
-/

open Matrix QuadraticForm QuadraticMap

namespace InteriorPoint

variable {n p : ℕ}

namespace Block

/-! ## The square that is completed -/

/-- The regularized matrix of optimality conditions, in blocks. -/
def regularizedSaddle (ε : ℝ) (H : Matrix (Fin n) (Fin n) ℝ) (A : Matrix (Fin p) (Fin n) ℝ) :
    Matrix (Fin n ⊕ Fin p) (Fin n ⊕ Fin p) ℝ :=
  fromBlocks (H + ε • 1) Aᵀ A (-(ε • 1))

/-- **What is left of the regularized Hessian** when the last block is eliminated. -/
noncomputable def regularizedSchur (ε : ℝ) (H : Matrix (Fin n) (Fin n) ℝ)
    (A : Matrix (Fin p) (Fin n) ℝ) : Matrix (Fin n) (Fin n) ℝ :=
  H + ε • 1 + (1 / ε) • (Aᵀ * A)

variable {ε : ℝ} {H : Matrix (Fin n) (Fin n) ℝ} {A : Matrix (Fin p) (Fin n) ℝ}

theorem isSymm_regularizedSaddle (hH : H.IsSymm) : (regularizedSaddle ε H A).IsSymm :=
  .fromBlocks (hH.add (isSymm_one.smul ε)) rfl (isSymm_one.smul ε).neg

theorem isSymm_regularizedSchur (hH : H.IsSymm) : (regularizedSchur ε H A).IsSymm := by
  have hgram : (Aᵀ * A).IsSymm := by
    rw [Matrix.IsSymm, transpose_mul, transpose_transpose]
  exact (hH.add (isSymm_one.smul ε)).add (hgram.smul (1 / ε))

theorem quadraticForm_regularizedSaddle (ε : ℝ) (H : Matrix (Fin n) (Fin n) ℝ)
    (A : Matrix (Fin p) (Fin n) ℝ) (x : Fin n → ℝ) (w : Fin p → ℝ) :
    (regularizedSaddle ε H A).toQuadraticForm' (Sum.elim x w)
      = x ⬝ᵥ H *ᵥ x + ε * (x ⬝ᵥ x) + 2 * (w ⬝ᵥ A *ᵥ x) - ε * (w ⬝ᵥ w) := by
  have hmixed : x ⬝ᵥ Aᵀ *ᵥ w = w ⬝ᵥ A *ᵥ x := by
    rw [dotProduct_mulVec, vecMul_transpose, dotProduct_comm]
  rw [quadraticForm_apply, regularizedSaddle, fromBlocks_mulVec, Sum.elim_comp_inl,
    Sum.elim_comp_inr, sumElim_dotProduct_sumElim, add_mulVec, smul_mulVec, one_mulVec, neg_mulVec,
    smul_mulVec, one_mulVec, dotProduct_add, dotProduct_add, dotProduct_add, hmixed,
    dotProduct_neg, dotProduct_smul, dotProduct_smul, smul_eq_mul, smul_eq_mul]
  ring

/-- **The square is completed** by a shift of the multipliers. -/
theorem quadraticForm_regularizedSaddle_shift (hε : ε ≠ 0) (x : Fin n → ℝ) (w : Fin p → ℝ) :
    (regularizedSaddle ε H A).toQuadraticForm' (Sum.elim x ((1 / ε) • A *ᵥ x + w))
      = x ⬝ᵥ regularizedSchur ε H A *ᵥ x - ε * (w ⬝ᵥ w) := by
  have hgram : x ⬝ᵥ (Aᵀ * A) *ᵥ x = A *ᵥ x ⬝ᵥ A *ᵥ x := by
    rw [← mulVec_mulVec, dotProduct_mulVec, vecMul_transpose]
  rw [quadraticForm_regularizedSaddle, regularizedSchur, add_mulVec, add_mulVec, smul_mulVec,
    smul_mulVec, one_mulVec, dotProduct_add, dotProduct_add, dotProduct_smul, dotProduct_smul,
    hgram, add_dotProduct, add_dotProduct, dotProduct_add, dotProduct_smul, smul_dotProduct,
    smul_dotProduct, dotProduct_comm (A *ᵥ x) w]
  simp only [smul_eq_mul]
  field_simp
  ring

/-! ## The signature -/

/-- The shift of the multipliers, as a change of coordinates. -/
noncomputable def shift (ε : ℝ) (A : Matrix (Fin p) (Fin n) ℝ) :
    ((Fin n → ℝ) × (Fin p → ℝ)) ≃ₗ[ℝ] (Fin n ⊕ Fin p → ℝ) :=
  (LinearEquiv.skewProd (.refl ℝ _) (.refl ℝ _) ((1 / ε) • A.mulVecLin)).trans
    (LinearEquiv.sumArrowLequivProdArrow (Fin n) (Fin p) ℝ ℝ).symm

theorem shift_apply (ε : ℝ) (A : Matrix (Fin p) (Fin n) ℝ) (x : Fin n → ℝ) (w : Fin p → ℝ) :
    shift ε A (x, w) = Sum.elim x ((1 / ε) • A *ᵥ x + w) := by
  rw [add_comm]
  rfl

/-- The points over two subspaces, in the shifted coordinates. -/
noncomputable def shiftedPoints (ε : ℝ) (A : Matrix (Fin p) (Fin n) ℝ)
    (S : Submodule ℝ (Fin n → ℝ)) (T : Submodule ℝ (Fin p → ℝ)) :
    Submodule ℝ (Fin n ⊕ Fin p → ℝ) :=
  LinearMap.range ((shift ε A).toLinearMap ∘ₗ S.subtype.prodMap T.subtype)

variable {S : Submodule ℝ (Fin n → ℝ)} {T : Submodule ℝ (Fin p → ℝ)}

theorem elim_shift_zero (ε : ℝ) (A : Matrix (Fin p) (Fin n) ℝ) :
    Sum.elim (0 : Fin n → ℝ) ((1 / ε) • A *ᵥ 0 + 0) = 0 := by
  rw [mulVec_zero, smul_zero, add_zero, Sum.elim_zero_zero]

theorem finrank_shiftedPoints :
    Module.finrank ℝ (shiftedPoints ε A S T) = Module.finrank ℝ S + Module.finrank ℝ T := by
  have hinjective :
      Function.Injective ((shift ε A).toLinearMap ∘ₗ S.subtype.prodMap T.subtype) :=
    (shift ε A).injective.comp
      (Prod.map_injective.mpr ⟨S.injective_subtype, T.injective_subtype⟩)
  rw [shiftedPoints, LinearMap.finrank_range_of_inj hinjective, Module.finrank_prod]

theorem exists_of_mem_shiftedPoints {z : Fin n ⊕ Fin p → ℝ} (hz : z ∈ shiftedPoints ε A S T) :
    ∃ x ∈ S, ∃ w ∈ T, z = Sum.elim x ((1 / ε) • A *ᵥ x + w) := by
  obtain ⟨⟨x, w⟩, rfl⟩ := hz
  exact ⟨x, x.2, w, w.2, shift_apply ε A x w⟩

/-- The form is positive definite where the shifted multipliers are zero, if what is left of the
Hessian is. -/
theorem posDef_restrict_shiftedPoints (hε : ε ≠ 0) (hS : (regularizedSchur ε H A).PosDef) :
    ((regularizedSaddle ε H A).toQuadraticForm'.restrict (shiftedPoints ε A ⊤ ⊥)).PosDef := by
  rintro ⟨z, hz⟩ hne
  obtain ⟨x, -, w, hw, rfl⟩ := exists_of_mem_shiftedPoints hz
  obtain rfl := (Submodule.mem_bot ℝ).mp hw
  have hx : x ≠ 0 := by
    rintro rfl
    exact hne (Subtype.ext (elim_shift_zero ε A))
  rw [restrict_apply, quadraticForm_regularizedSaddle_shift hε, dotProduct_zero, mul_zero, sub_zero]
  exact hS.dotProduct_mulVec_pos hx

/-- The form is negative definite where the variables are zero. -/
theorem negDef_restrict_shiftedPoints (hε : 0 < ε) :
    ((-(regularizedSaddle ε H A).toQuadraticForm').restrict (shiftedPoints ε A ⊥ ⊤)).PosDef := by
  rintro ⟨z, hz⟩ hne
  obtain ⟨x, hx, w, -, rfl⟩ := exists_of_mem_shiftedPoints hz
  obtain rfl := (Submodule.mem_bot ℝ).mp hx
  have hw : w ≠ 0 := by
    rintro rfl
    exact hne (Subtype.ext (elim_shift_zero ε A))
  have hsquare : 0 < w ⬝ᵥ w := dotProduct_star_self_pos_iff.mpr hw
  show 0 < -(regularizedSaddle ε H A).toQuadraticForm' (Sum.elim 0 ((1 / ε) • A *ᵥ 0 + w))
  rw [quadraticForm_regularizedSaddle_shift hε.ne', zero_dotProduct, zero_sub, neg_neg]
  exact mul_pos hε hsquare

/-- The form is positive nowhere over a direction along which what is left of the Hessian is not. -/
theorem quadraticForm_nonpos_of_mem_shiftedPoints (hε : 0 < ε) {x : Fin n → ℝ}
    (hx : x ⬝ᵥ regularizedSchur ε H A *ᵥ x ≤ 0) {z : Fin n ⊕ Fin p → ℝ}
    (hz : z ∈ shiftedPoints ε A (Submodule.span ℝ {x}) ⊤) :
    (regularizedSaddle ε H A).toQuadraticForm' z ≤ 0 := by
  obtain ⟨y, hy, w, -, rfl⟩ := exists_of_mem_shiftedPoints hz
  obtain ⟨c, rfl⟩ := Submodule.mem_span_singleton.mp hy
  have hsquare : 0 ≤ w ⬝ᵥ w := dotProduct_star_self_nonneg w
  have hcurvature := mul_nonpos_of_nonneg_of_nonpos (mul_self_nonneg c) hx
  rw [quadraticForm_regularizedSaddle_shift hε.ne', mulVec_smul, smul_dotProduct, dotProduct_smul,
    smul_smul, smul_eq_mul]
  exact sub_nonpos.mpr (hcurvature.trans (mul_nonneg hε.le hsquare))

/-- **The signature of a regularized block matrix** is `(n, p)` exactly if what is left of the
Hessian is positive definite. -/
theorem posDef_regularizedSchur_iff (hε : 0 < ε) (hH : H.IsSymm) :
    (regularizedSchur ε H A).PosDef ↔
      sigPos (regularizedSaddle ε H A).toQuadraticForm' = n ∧
        sigNeg (regularizedSaddle ε H A).toQuadraticForm' = p := by
  set Q := (regularizedSaddle ε H A).toQuadraticForm'
  have hsum : sigPos Q + sigNeg Q + Module.finrank ℝ Q.radical = n + p :=
    sigPos_add_sigNeg_add_radical.trans finrank_pairs
  constructor
  · intro hS
    have hn := le_sigPos_of_posDef Q (posDef_restrict_shiftedPoints hε.ne' hS)
    have hp := le_sigNeg_of_negDef Q (negDef_restrict_shiftedPoints hε)
    rw [finrank_shiftedPoints, finrank_top, finrank_bot, Module.finrank_fin_fun] at hn hp
    omega
  · rintro ⟨hpos, -⟩
    refine .of_dotProduct_mulVec_pos
      (Matrix.isHermitian_iff_isSymm.mpr (isSymm_regularizedSchur hH)) fun {x} hx => ?_
    -- a direction without positive curvature would leave less than `n` positive dimensions
    by_contra hle
    have hle : x ⬝ᵥ regularizedSchur ε H A *ᵥ x ≤ 0 := not_lt.mp hle
    have h : sigPos Q + _ ≤ _ := sigPos_add_finrank_le_of_nonpos fun z hz =>
      quadraticForm_nonpos_of_mem_shiftedPoints hε hle hz
    rw [finrank_shiftedPoints, finrank_span_singleton hx, finrank_top, Module.finrank_fin_fun,
      finrank_pairs] at h
    omega

/-- The regularized matrix of a block system, in blocks. -/
theorem toMatrix_regularize (hε : 0 < ε) (H : Mat ℝ n n) (A : Mat ℝ p n) :
    (regularize ε (assemble H A (Mat.transpose A))).toMatrix
      = Matrix.reindex finSumFinEquiv finSumFinEquiv
        (regularizedSaddle ε H.toMatrix A.toMatrix) := by
  unfold regularize
  rw [if_pos hε, Mat.toMatrix_of]
  ext i j
  rw [Matrix.reindex_apply, Matrix.submatrix_apply]
  have hapart : ∀ (i : Fin n) (j : Fin p), i.castAdd p ≠ j.natAdd n := fun i j h => by
    have hval : i.val = n + j.val := congrArg Fin.val h
    omega
  refine Fin.addCases (fun i => ?_) (fun i => ?_) i <;>
    refine Fin.addCases (fun j => ?_) (fun j => ?_) j
  · by_cases hij : i = j <;> simp [regularizedSaddle, hij]
  · simp [regularizedSaddle, hapart]
  · simp [regularizedSaddle, (hapart _ _).symm]
  · by_cases hij : i = j <;> simp [regularizedSaddle, hij]

end Block

/-- **The law of the inertia check with regularization.** For a symmetric Hessian `H` under
equations `A` of any rank, with a regularization `ε` that is positive, and where the eigenvalues are
found, a check that passes says that `H + ε·1 + AᵀA/ε` is positive definite, and so does a step.
Where this matrix is positive definite, the check never refuses the Hessian as not positive
definite: it passes or refuses the system as singular, because an eigenvalue lies within the
tolerance. -/
theorem regularized_inertia_check_law (s : Solver ℝ) (hvalid : s.settings.validate = .ok ())
    (hreg : 0 < s.settings.regularization) (hcheck : s.settings.checkInertia = true)
    (H : Mat ℝ n n) (hH : H.toMatrix.IsSymm) (A : Mat ℝ p n)
    (hspectrum : s.FindsSpectrum (s.blockMatrix H A (Mat.transpose A))) :
    ((s.checkInertia n p (s.blockMatrix H A (Mat.transpose A))).outcome = .ok () →
      (Block.regularizedSchur s.settings.regularization H.toMatrix A.toMatrix).PosDef) ∧
    (∀ (g : Vec ℝ n) (r : Vec ℝ p) (step : Step ℝ n),
      (s.solve (.ofMat H) (.ofMat A) (.ofMat (Mat.transpose A)) g r).outcome = .ok step →
      (Block.regularizedSchur s.settings.regularization H.toMatrix A.toMatrix).PosDef) ∧
    ((Block.regularizedSchur s.settings.regularization H.toMatrix A.toMatrix).PosDef →
      (∀ cause, (s.checkInertia n p (s.blockMatrix H A (Mat.transpose A))).outcome
        ≠ .error (.error (.notPositiveDefinite cause))) ∧
      ((s.checkInertia n p (s.blockMatrix H A (Mat.transpose A))).outcome = .ok () ∨
        s.SmallEigenvalue n p (s.blockMatrix H A (Mat.transpose A)))) := by
  have hcases := Solver.outcome_checkInertia_cases_of_reindex hvalid hcheck
    (Block.isSymm_regularizedSaddle hH) (Block.toMatrix_regularize hreg H A) hspectrum
  rw [← Block.posDef_regularizedSchur_iff hreg hH] at hcases
  have hpass : (s.checkInertia n p (s.blockMatrix H A (Mat.transpose A))).outcome = .ok () →
      (Block.regularizedSchur s.settings.regularization H.toMatrix A.toMatrix).PosDef := by
    intro hok
    obtain ⟨d, count, -, -, hrefuse⟩ | ⟨hposDef, -⟩ | ⟨-, cause, hrefuse⟩ := hcases
    · exact nomatch hrefuse.symm.trans hok
    · exact hposDef
    · exact nomatch hrefuse.symm.trans hok
  refine ⟨hpass, fun g r step hstep => ?_, fun hposDef => ?_⟩
  · obtain ⟨-, hn, -, -, -, -, -, -, htranspose, -⟩ := Solver.outcome_solve_eq_ok.mp hstep
    rw [Solver.outcome_solve hvalid hn htranspose] at hstep
    exact hpass (Solver.outcome_solveBlock_eq_ok.mp hstep).1
  · obtain hsmall | ⟨-, hok⟩ | ⟨hindefinite, -⟩ := hcases
    · obtain ⟨d, count, -, -, hrefuse⟩ := id hsmall
      exact ⟨fun cause h => (nomatch hrefuse.symm.trans h), Or.inr hsmall⟩
    · exact ⟨fun cause h => (nomatch hok.symm.trans h), Or.inl hok⟩
    · exact absurd hposDef hindefinite

namespace Solver

/-- The default settings but for a regularization of one, with the eigenvalues of the spectral
theorem. -/
noncomputable def regularizedSpectral : Solver ℝ :=
  { spectral with settings := { regularization := 1 } }

theorem validate_regularizedSpectral : regularizedSpectral.settings.validate = .ok () :=
  (Settings.validate_eq_ok_iff _).mpr
    ⟨zero_le_one, ((Settings.validate_eq_ok_iff _).mp validate_unchecked).2⟩

/-- A Hessian of one variable without curvature, and at the same time an equation that says
nothing. -/
noncomputable def flat : Mat ℝ 1 1 := Mat.zero

theorem toMatrix_flat : flat.toMatrix = 0 := by
  ext i j
  rw [Subsingleton.elim i 0, Subsingleton.elim j 0]
  rfl

/-- What is left of the regularized Hessian is the identity. -/
theorem regularizedSchur_flat :
    Block.regularizedSchur regularizedSpectral.settings.regularization flat.toMatrix flat.toMatrix
      = 1 := by
  have hreg : regularizedSpectral.settings.regularization = 1 := rfl
  rw [Block.regularizedSchur, toMatrix_flat, hreg, mul_zero, smul_zero, add_zero, zero_add,
    one_smul]

/-- The regularized block matrix of the two is its own inverse. -/
theorem mirrored_flat_mul_self :
    (regularizedSpectral.blockMatrix flat flat (Mat.transpose flat)).mirrored *
      (regularizedSpectral.blockMatrix flat flat (Mat.transpose flat)).mirrored = 1 := by
  have hmatrix : (regularizedSpectral.blockMatrix flat flat (Mat.transpose flat)).toMatrix
      = Matrix.reindex finSumFinEquiv finSumFinEquiv (Block.regularizedSaddle 1 0 0) := by
    rw [← toMatrix_flat]
    exact Block.toMatrix_regularize one_pos flat flat
  have hsquare : Block.regularizedSaddle 1 (0 : Matrix (Fin 1) (Fin 1) ℝ)
      (0 : Matrix (Fin 1) (Fin 1) ℝ) * Block.regularizedSaddle 1 0 0 = 1 := by
    rw [Block.regularizedSaddle, one_smul, zero_add, transpose_zero, fromBlocks_multiply]
    simp
  have hsymm :
      (regularizedSpectral.blockMatrix flat flat (Mat.transpose flat)).toMatrix.IsSymm := by
    rw [hmatrix]
    exact (Block.isSymm_regularizedSaddle isSymm_zero).submatrix _
  rw [Mat.mirrored_of_isSymm hsymm, hmatrix, Matrix.reindex_apply, Matrix.submatrix_mul_equiv,
    hsquare, Matrix.submatrix_one_equiv]

end Solver

/-- The law for a Hessian without curvature under an equation that says nothing, of which neither
would pass without regularization. -/
theorem regularized_inertia_check_law_flat :
    Solver.regularizedSpectral.settings.validate = .ok () ∧
    0 < Solver.regularizedSpectral.settings.regularization ∧
    Solver.regularizedSpectral.settings.checkInertia = true ∧ Solver.flat.toMatrix.IsSymm ∧
    Solver.regularizedSpectral.FindsSpectrum
      (Solver.regularizedSpectral.blockMatrix Solver.flat Solver.flat
        (Mat.transpose Solver.flat)) ∧
    (Solver.regularizedSpectral.checkInertia 1 1 (Solver.regularizedSpectral.blockMatrix
      Solver.flat Solver.flat (Mat.transpose Solver.flat))).outcome = .ok () := by
  have hreg : 0 < Solver.regularizedSpectral.settings.regularization := one_pos (α := ℝ)
  have hsymm : Solver.flat.toMatrix.IsSymm := Matrix.IsSymm.ext fun i j => by
    rw [Subsingleton.elim i j]
  have hposDef : (Block.regularizedSchur Solver.regularizedSpectral.settings.regularization
      Solver.flat.toMatrix Solver.flat.toMatrix).PosDef := by
    rw [Solver.regularizedSchur_flat]
    exact Matrix.PosDef.one
  obtain ⟨-, -, hlaw⟩ := regularized_inertia_check_law Solver.regularizedSpectral
    Solver.validate_regularizedSpectral hreg rfl Solver.flat hsymm Solver.flat
    (Solver.findsSpectrum_spectral _)
  have hok := (hlaw hposDef).2.resolve_right (Solver.not_smallEigenvalue_of_mul_self rfl
    Solver.pivotTolerance_spectral Solver.mirrored_flat_mul_self)
  exact ⟨Solver.validate_regularizedSpectral, hreg, rfl, hsymm, Solver.findsSpectrum_spectral _,
    hok⟩

end InteriorPoint

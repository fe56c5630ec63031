import InteriorPoint.Proofs.Kkt.InertiaCheck

/-!
# The decrement of a block step

A block step takes its squared decrement from the Hessian alone, as the curvature `v·Hv`, and it is
the two rows of blocks that tie it to the gradient (`Block.dotProduct_mulVec_of_rows`):

  `v·Hv = -g·v - w·Av = -g·v + r·w`

Where the residual `r` is zero, the step `v` lies in the null space of the equations, and the slope
along it is minus the squared decrement. The check of the signs of the eigenvalues asks that the
Hessian is positive definite on this null space, and nowhere else. So a checked step goes down, or
is zero, also where the Hessian is indefinite (`block_decrement_law`).
-/

open Matrix

namespace InteriorPoint

variable {n p : ℕ}

namespace Block

variable {H : Matrix (Fin n) (Fin n) ℝ} {A : Matrix (Fin p) (Fin n) ℝ} {g v : Fin n → ℝ}
  {r w : Fin p → ℝ}

/-- **The curvature along a solution** of the two rows of blocks, by gradient and residual. -/
theorem dotProduct_mulVec_of_rows (hupper : H *ᵥ v + Aᵀ *ᵥ w = -g) (hlower : A *ᵥ v = -r) :
    v ⬝ᵥ H *ᵥ v = -(g ⬝ᵥ v) + r ⬝ᵥ w := by
  have hmixed : v ⬝ᵥ Aᵀ *ᵥ w = -(r ⬝ᵥ w) := by
    rw [dotProduct_mulVec, vecMul_transpose, hlower, neg_dotProduct]
  rw [eq_sub_of_add_eq hupper, dotProduct_sub, hmixed, dotProduct_neg, dotProduct_comm,
    sub_neg_eq_add]

/-- Where the form is definite on the null space, it does not vanish there but at the origin. -/
theorem DefiniteOnNullSpace.dotProduct_mulVec_pos_iff (h : DefiniteOnNullSpace H A)
    (hv : A *ᵥ v = 0) : 0 < v ⬝ᵥ H *ᵥ v ↔ v ≠ 0 := by
  refine ⟨?_, fun hne => h.pos v hne hv⟩
  rintro hpos rfl
  exact hpos.ne' (zero_dotProduct _)

end Block

namespace Solver

/-- **A check of the signs that passes** says that the Hessian is definite on the null space. -/
theorem definiteOnNullSpace_of_outcome_checkInertia {s : Solver ℝ}
    (hvalid : s.settings.validate = .ok ()) (hcheck : s.settings.checkInertia = true)
    {H : Mat ℝ n n} (hH : H.toMatrix.IsSymm) {A : Mat ℝ p n}
    (hspectrum : s.FindsSpectrum (Block.assemble H A (Mat.transpose A)))
    (hok : (s.checkInertia n p (Block.assemble H A (Mat.transpose A))).outcome = .ok ()) :
    Block.DefiniteOnNullSpace H.toMatrix A.toMatrix := by
  obtain ⟨d, count, -, -, hrefuse⟩ | ⟨hdefinite, -⟩ | ⟨-, cause, hrefuse⟩ :=
    outcome_checkInertia_cases hvalid hcheck hH hspectrum
  · exact nomatch hrefuse.symm.trans hok
  · exact hdefinite
  · exact nomatch hrefuse.symm.trans hok

variable {s : Solver ℝ} {H : Mat ℝ n n} {A : Mat ℝ p n} {g : Vec ℝ n} {r : Vec ℝ p}
  {step : Step ℝ n}

/-- **A step under equations** solves both rows of blocks, has the curvature along it as its squared
decrement, and the check of the signs has passed. -/
theorem exists_rows_of_outcome_solve (hreg : s.settings.regularization = 0)
    (hstep : (s.solve (.ofMat H) (.ofMat A) (.ofMat (Mat.transpose A)) g r).outcome = .ok step) :
    s.settings.validate = .ok () ∧
    (s.checkInertia n p (Block.assemble H A (Mat.transpose A))).outcome = .ok () ∧
    ∃ w : Vec ℝ p, step.w = some w.toArray ∧
      H.toMatrix *ᵥ step.v.get + A.toMatrixᵀ *ᵥ w.get = -g.get ∧
      A.toMatrix *ᵥ step.v.get = -r.get ∧
      step.decrementSquared = step.v.get ⬝ᵥ H.toMatrix *ᵥ step.v.get := by
  obtain ⟨hvalid, hn, -, -, -, -, -, -, htranspose, -⟩ := outcome_solve_eq_ok.mp hstep
  rw [outcome_solve hvalid hn htranspose] at hstep
  have hinertia := (outcome_solveBlock_eq_ok.mp hstep).1
  rw [blockMatrix_of_regularization hreg] at hinertia
  obtain ⟨-, x, hx, rfl⟩ := exists_of_outcome_solveBlock hvalid hreg hstep
  obtain ⟨hupper, hlower⟩ := (Block.assemble_mulVec_eq_iff H A _ g r x).mp hx
  rw [Mat.toMatrix_transpose] at hupper
  refine ⟨hvalid, hinertia, Block.tail x, rfl, hupper, hlower, ?_⟩
  show Vec.dot (Block.head x) (Mat.mulVec H (Block.head x)) = _
  rw [Vec.dot_eq, Mat.get_mulVec_eq]
  rfl

end Solver

/-- **The law of the decrement of a block step.** Without regularization the squared decrement of
every step is `-g·v + r·w`, whatever the Hessian and whether or not the signs of the eigenvalues are
checked. For a symmetric Hessian and the residual zero, and where the eigenvalues are found and
checked, it is not negative, it vanishes only for the step zero, and any other step goes down along
the gradient. -/
theorem block_decrement_law (s : Solver ℝ) (hreg : s.settings.regularization = 0) (H : Mat ℝ n n)
    (A : Mat ℝ p n) (g : Vec ℝ n) (r : Vec ℝ p) (step : Step ℝ n)
    (hstep : (s.solve (.ofMat H) (.ofMat A) (.ofMat (Mat.transpose A)) g r).outcome = .ok step) :
    (∃ w : Vec ℝ p, step.w = some w.toArray ∧
      step.decrementSquared = -(g.get ⬝ᵥ step.v.get) + r.get ⬝ᵥ w.get) ∧
    (H.toMatrix.IsSymm → r.get = 0 → s.settings.checkInertia = true →
      s.FindsSpectrum (s.blockMatrix H A (Mat.transpose A)) →
      0 ≤ step.decrementSquared ∧ (step.decrementSquared = 0 ↔ step.v.get = 0) ∧
        (step.v.get ≠ 0 → g.get ⬝ᵥ step.v.get < 0)) := by
  obtain ⟨hvalid, hinertia, w, hw, hupper, hlower, hcurvature⟩ :=
    Solver.exists_rows_of_outcome_solve hreg hstep
  have hdecrement := hcurvature.trans (Block.dotProduct_mulVec_of_rows hupper hlower)
  refine ⟨⟨w, hw, hdecrement⟩, fun hH hr hcheck hspectrum => ?_⟩
  rw [Solver.blockMatrix_of_regularization hreg] at hspectrum
  rw [hr, neg_zero] at hlower
  rw [hr, zero_dotProduct, add_zero] at hdecrement
  have hpos := (Solver.definiteOnNullSpace_of_outcome_checkInertia hvalid hcheck hH hspectrum
    hinertia).dotProduct_mulVec_pos_iff hlower
  rw [← hcurvature] at hpos
  by_cases hv : step.v.get = 0
  · have hzero : step.decrementSquared = 0 := by rw [hcurvature, hv, zero_dotProduct]
    exact ⟨hzero.ge, iff_of_true hzero hv, fun hne => absurd hv hne⟩
  · have hpos := hpos.mpr hv
    exact ⟨hpos.le, iff_of_false hpos.ne' hv, fun _ => neg_pos.mp (hdecrement ▸ hpos)⟩

namespace Solver

/-- The Hessian of `-x·y`: a pass, with curvature of either sign. -/
def pass : Mat ℝ 2 2 := Mat.of ![![0, -1], ![-1, 0]]

/-- The equation for the direction that leads up from the pass on both sides. -/
def acrossPass : Mat ℝ 1 2 := Mat.of ![![1, 1]]

theorem isSymm_pass : pass.toMatrix.IsSymm :=
  Matrix.IsSymm.ext fun i j => by fin_cases i <;> fin_cases j <;> rfl

theorem definiteOnNullSpace_pass :
    Block.DefiniteOnNullSpace pass.toMatrix acrossPass.toMatrix := by
  refine ⟨Block.rank_eq_iff.mpr fun w hw => ?_, fun x hx hAx => ?_⟩
  · have h := congrFun hw 0
    rw [Matrix.mulVec, dotProduct, Fin.sum_univ_one] at h
    have h : (1 : ℝ) * w 0 = 0 := h
    funext i
    rw [Subsingleton.elim i 0, Pi.zero_apply]
    linarith
  · have hsum := congrFun hAx 0
    rw [Matrix.mulVec, dotProduct, Fin.sum_univ_two] at hsum
    have hsum : (1 : ℝ) * x 0 + 1 * x 1 = 0 := hsum
    have h1 : x 1 = -x 0 := by linarith
    have h0 : x 0 ≠ 0 := by
      intro h0
      refine hx (funext fun i => ?_)
      fin_cases i
      · exact h0
      · exact h1.trans (neg_eq_zero.mpr h0)
    have hform : x ⬝ᵥ pass.toMatrix *ᵥ x = 2 * (x 0 * x 0) := by
      rw [dotProduct, Fin.sum_univ_two, Matrix.mulVec, Matrix.mulVec, dotProduct, dotProduct,
        Fin.sum_univ_two, Fin.sum_univ_two]
      show x 0 * (0 * x 0 + -1 * x 1) + x 1 * (-1 * x 0 + 0 * x 1) = _
      rw [h1]
      ring
    rw [hform]
    exact mul_pos two_pos (mul_self_pos.mpr h0)

/-- A factor of two is not small against the tolerance. -/
theorem pivotTolerance_spectral_mul_two : spectral.settings.pivotTolerance * 2 < 1 := by
  show ((1 : ℕ) : ℝ) / ((Nat.pow 10 13 : ℕ) : ℝ) * 2 < 1
  norm_num

/-- The block matrix of the pass. -/
noncomputable def passBlock : Mat ℝ (2 + 1) (2 + 1) :=
  Block.assemble pass acrossPass (Mat.transpose acrossPass)

theorem mirrored_passBlock : passBlock.mirrored = !![0, -1, 1; -1, 0, 1; 1, 1, 0] := by
  ext i j
  fin_cases i <;> fin_cases j <;> rfl

/-- Its eigenvalues are `1`, `1` and `-2`. -/
theorem not_smallEigenvalue_pass : ¬ spectral.SmallEigenvalue 2 1 passBlock := by
  have hequation : passBlock.mirrored * passBlock.mirrored + (1 : ℝ) • passBlock.mirrored
      = (2 : ℝ) • 1 := by
    rw [mirrored_passBlock, Matrix.one_fin_three, Matrix.mul_fin_three]
    norm_num
  refine not_smallEigenvalue_of_abs_mem_Icc rfl zero_le_two
    ⟨pivotTolerance_spectral.1, pivotTolerance_spectral_mul_two⟩ fun i => ?_
  have hvalue := eigenvalues_quadratic (isHermitian_mirrored passBlock) hequation i
  set v := (isHermitian_mirrored passBlock).eigenvalues i
  have hroots : (v - 1) * (v + 2) = 0 := by linarith
  obtain hv | hv := mul_eq_zero.mp hroots
  · rw [sub_eq_zero.mp hv]
    norm_num
  · rw [eq_neg_of_add_eq_zero_left hv]
    norm_num

theorem entry_passBlock (i j : Fin 3) :
    Mat.entry passBlock i j = ![![0, -1, 1], ![-1, 0, 1], ![1, 1, 0]] i j := by
  fin_cases i <;> fin_cases j <;> rfl

/-- The factors of the block matrix: the first two rows change places. -/
theorem packed_factor_passBlock :
    (Lu.factor passBlock).packed = Mat.of ![![-1, 0, 1], ![0, -1, 1], ![-1, -1, 2]] := by
  have hfirst : Lu.pivotRow passBlock 0 = 1 := by
    simp [Lu.pivotRow, Fin.foldl_succ, entry_passBlock]
  have hfirstClear : Lu.clearColumn (Mat.swapRows passBlock 0 1) 0
      = Mat.of ![![-1, 0, 1], ![0, -1, 1], ![-1, 1, 1]] := by
    refine Mat.ext_entry fun i j => ?_
    rw [Mat.entry_of, Lu.entry_clearColumn]
    fin_cases i <;> fin_cases j <;> simp [Mat.entry_swapRows, entry_passBlock]
  have hsecond : Lu.pivotRow (Mat.of ![![-1, 0, 1], ![0, -1, 1], ![-1, 1, 1]] : Mat ℝ 3 3) 1
      = 1 := by
    simp [Lu.pivotRow, Fin.foldl_succ]
  have hsecondClear : Lu.clearColumn (Mat.swapRows
      (Mat.of ![![-1, 0, 1], ![0, -1, 1], ![-1, 1, 1]] : Mat ℝ 3 3) 1 1) 1
      = Mat.of ![![-1, 0, 1], ![0, -1, 1], ![-1, -1, 2]] := by
    refine Mat.ext_entry fun i j => ?_
    rw [Mat.entry_of, Lu.entry_clearColumn]
    fin_cases i <;> fin_cases j <;> simp [Mat.entry_swapRows, one_add_one_eq_two]
  have hthird : Lu.pivotRow (Mat.of ![![-1, 0, 1], ![0, -1, 1], ![-1, -1, 2]] : Mat ℝ 3 3) 2
      = 2 := by
    simp [Lu.pivotRow, Fin.foldl_succ]
  have hthirdClear : Lu.clearColumn (Mat.swapRows
      (Mat.of ![![-1, 0, 1], ![0, -1, 1], ![-1, -1, 2]] : Mat ℝ 3 3) 2 2) 2
      = Mat.of ![![-1, 0, 1], ![0, -1, 1], ![-1, -1, 2]] := by
    refine Mat.ext_entry fun i j => ?_
    rw [Mat.entry_of, Lu.entry_clearColumn]
    fin_cases i <;> fin_cases j <;> simp [Mat.entry_swapRows]
  show (Lu.eliminate (Lu.eliminate (Lu.eliminate ⟨passBlock, []⟩ 0) 1) 2).packed = _
  rw [Lu.eliminate_of_pivot_ne_zero (F := ⟨passBlock, []⟩) (by simp [hfirst, entry_passBlock])]
  simp only [hfirst, hfirstClear]
  rw [Lu.eliminate_of_pivot_ne_zero (i := 1) (by simp [hsecond])]
  simp only [hsecond, hsecondClear]
  rw [Lu.eliminate_of_pivot_ne_zero (by simp [hthird])]
  simp only [hthird, hthirdClear]

theorem outcome_checkPivots_pass :
    (spectral.checkPivots (Lu.factor passBlock)).outcome = .ok () := by
  have hpivots : (Lu.factor passBlock).pivots.toList = [-1, -1, 2] := by
    rw [Lu.pivots, packed_factor_passBlock]
    rfl
  rw [outcome_checkPivots, hpivots]
  refine if_neg ?_
  simp [Vec.smallestAbs, Vec.largestAbs, pivotTolerance_spectral_mul_two]

/-- On the pass there is a step under the equation, for every gradient and residual. -/
theorem exists_outcome_solve_pass (g : Vec ℝ 2) (r : Vec ℝ 1) :
    ∃ step, (spectral.solve (.ofMat pass) (.ofMat acrossPass) (.ofMat (Mat.transpose acrossPass))
      g r).outcome = .ok step := by
  have hvalid : spectral.settings.validate = .ok () := Settings.validate_default
  have hmatrix : spectral.blockMatrix pass acrossPass (Mat.transpose acrossPass) = passBlock :=
    blockMatrix_of_regularization rfl _ _ _
  have hinertia : (spectral.checkInertia 2 1 passBlock).outcome = .ok () := by
    obtain hsmall | ⟨-, hok⟩ | ⟨hindefinite, -⟩ := outcome_checkInertia_cases hvalid rfl
      isSymm_pass (findsSpectrum_spectral _)
    · exact absurd hsmall not_smallEigenvalue_pass
    · exact hok
    · exact absurd definiteOnNullSpace_pass hindefinite
  rw [outcome_solve hvalid two_ne_zero (Dense.checkTranspose_symmetryTolerance _)]
  exact (exists_outcome_solveBlock_iff hvalid _ _ _ _ _).mpr
    ⟨hmatrix ▸ hinertia, hmatrix ▸ outcome_checkPivots_pass⟩

end Solver

/-- The law on a pass, whose Hessian is indefinite: under the equation the step goes down. -/
theorem block_decrement_law_pass :
    Solver.spectral.settings.regularization = 0 ∧ Solver.pass.toMatrix.IsSymm ∧
    (#v[0] : Vec ℝ 1).get = 0 ∧ Solver.spectral.settings.checkInertia = true ∧
    Solver.spectral.FindsSpectrum (Solver.spectral.blockMatrix Solver.pass Solver.acrossPass
      (Mat.transpose Solver.acrossPass)) ∧
    ∃ step : Step ℝ 2, (Solver.spectral.solve (.ofMat Solver.pass) (.ofMat Solver.acrossPass)
        (.ofMat (Mat.transpose Solver.acrossPass)) #v[-2, 0] (#v[0] : Vec ℝ 1)).outcome = .ok step ∧
      0 < step.decrementSquared ∧ (#v[-2, 0] : Vec ℝ 2).get ⬝ᵥ step.v.get < 0 := by
  have hzero : (#v[0] : Vec ℝ 1).get = 0 := funext fun i => by rw [Subsingleton.elim i 0]; rfl
  obtain ⟨step, hstep⟩ := Solver.exists_outcome_solve_pass #v[-2, 0] #v[0]
  obtain ⟨-, hlaw⟩ := block_decrement_law Solver.spectral rfl Solver.pass Solver.acrossPass
    #v[-2, 0] #v[0] step hstep
  obtain ⟨hnonneg, hiff, hdescent⟩ := hlaw Solver.isSymm_pass hzero rfl
    (Solver.findsSpectrum_spectral _)
  have hmoves : step.v.get ≠ 0 := by
    -- a step zero would leave both entries of the gradient to the one multiplier
    intro hstays
    obtain ⟨-, -, w, -, hupper, -⟩ := Solver.exists_rows_of_outcome_solve rfl hstep
    rw [hstays, mulVec_zero, zero_add] at hupper
    have h0 := congrFun hupper 0
    have h1 := congrFun hupper 1
    rw [Matrix.mulVec, dotProduct, Fin.sum_univ_one] at h0 h1
    have h0 : (1 : ℝ) * w.get 0 = -(-2) := h0
    have h1 : (1 : ℝ) * w.get 0 = -0 := h1
    linarith
  exact ⟨rfl, Solver.isSymm_pass, hzero, rfl, Solver.findsSpectrum_spectral _, step, hstep,
    lt_of_le_of_ne hnonneg fun h => hmoves (hiff.mp h.symm), hdescent hmoves⟩

end InteriorPoint

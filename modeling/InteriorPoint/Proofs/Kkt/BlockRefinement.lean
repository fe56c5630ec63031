import InteriorPoint.Proofs.Kkt.NewtonStep

/-!
# What refinement makes of a block step

For a block system the regularized matrix is `M = K + ε·J`, with a `J` that is one on the variables
and minus one on the multipliers. Neither `K` nor `M` is definite, so that no bound on the curvature
of `K` says what refinement does. But in the inner product of `J·d` and `K·d` the terms that mix
variables and multipliers cancel, and `xᵀ·H·x` is left, where `x` are the variables of `d`. So

  `‖M·d‖² = ‖K·d‖² + 2·ε·xᵀ·H·x + ‖(M - K)·d‖²`

A solve with the factors of `M` for a residual `r = M·d` leaves `(M - K)·d` of it. If `H` has no
negative curvature, this is never longer than `r`, and it is shorter if `K` is not singular. So no
step of refinement makes the residual larger, whatever the rank of the equations
(`block_refinement_law`).
-/

open Matrix

namespace InteriorPoint

variable {n p : ℕ}

namespace Block

/-! ## The signs of the regularization -/

/-- The signs of the regularization: one for a variable and minus one for a multiplier. -/
def signs (n p : ℕ) : Fin (n + p) → ℝ := Fin.append 1 (-1)

/-- **A monotone block matrix**: with the signs of the regularization, its form is nowhere
negative. -/
def IsMonotone (K : Mat ℝ (n + p) (n + p)) : Prop :=
  ∀ d, 0 ≤ diagonal (signs n p) *ᵥ d ⬝ᵥ K.toMatrix *ᵥ d

/-- **The signs cancel what mixes variables and multipliers.** -/
theorem signs_mulVec_dotProduct (H : Mat ℝ n n) (A : Mat ℝ p n) (d : Vec ℝ (n + p)) :
    diagonal (signs n p) *ᵥ d.get ⬝ᵥ (assemble H A (Mat.transpose A)).toMatrix *ᵥ d.get
      = (head d).get ⬝ᵥ H.toMatrix *ᵥ (head d).get := by
  have hsigned : diagonal (signs n p) *ᵥ d.get = Fin.append (head d).get (-(tail d).get) := by
    funext i
    refine Fin.addCases (fun i => ?_) (fun i => ?_) i
    · simp [signs, mulVec_diagonal]
    · simp [signs, mulVec_diagonal]
  have hmixed : (head d).get ⬝ᵥ A.toMatrixᵀ *ᵥ (tail d).get
      = (tail d).get ⬝ᵥ A.toMatrix *ᵥ (head d).get := by
    rw [dotProduct_mulVec, vecMul_transpose, dotProduct_comm]
  rw [hsigned, assemble_mulVec, append_dotProduct_append, Mat.toMatrix_transpose, dotProduct_add,
    hmixed, neg_dotProduct, add_neg_cancel_right]

theorem isMonotone_assemble {H : Mat ℝ n n} (hH : ∀ x, 0 ≤ x ⬝ᵥ H.toMatrix *ᵥ x)
    (A : Mat ℝ p n) : IsMonotone (assemble H A (Mat.transpose A)) := by
  intro d
  obtain ⟨d, rfl⟩ : ∃ y : Vec ℝ (n + p), y.get = d := ⟨Vector.ofFn d, funext (Vec.get_ofFn d)⟩
  rw [signs_mulVec_dotProduct]
  exact hH _

theorem toMatrix_regularize_eq_add {ε : ℝ} (hε : 0 ≤ ε) (K : Mat ℝ (n + p) (n + p)) :
    (regularize ε K).toMatrix = K.toMatrix + ε • diagonal (signs n p) := by
  obtain rfl | hε := hε.eq_or_lt
  · rw [regularize_zero, zero_smul, add_zero]
  · unfold regularize
    rw [if_pos hε, Mat.toMatrix_of]
    ext i j
    by_cases hij : i = j
    · subst hij
      refine Fin.addCases (fun i => ?_) (fun i => ?_) i
      · simp [signs]
      · simp [signs, sub_eq_add_neg]
    · simp [hij]

/-! ## What a solve leaves -/

/-- **What a solve leaves of a residual**: the regularization times the inverse of the regularized
matrix. -/
noncomputable def leftover (ε : ℝ) (K : Mat ℝ (n + p) (n + p)) :
    Matrix (Fin (n + p)) (Fin (n + p)) ℝ :=
  ((regularize ε K).toMatrix - K.toMatrix) * (regularize ε K).toMatrix⁻¹

section Leftover

variable {ε : ℝ} (hε : 0 ≤ ε) {K : Mat ℝ (n + p) (n + p)}

include hε

/-- **The length of the product with a regularized matrix**, in three parts. -/
theorem regularize_mulVec_dotProduct_self (d : Fin (n + p) → ℝ) :
    (regularize ε K).toMatrix *ᵥ d ⬝ᵥ (regularize ε K).toMatrix *ᵥ d
      = K.toMatrix *ᵥ d ⬝ᵥ K.toMatrix *ᵥ d
        + 2 * ε * (diagonal (signs n p) *ᵥ d ⬝ᵥ K.toMatrix *ᵥ d)
        + ((regularize ε K).toMatrix - K.toMatrix) *ᵥ d
          ⬝ᵥ ((regularize ε K).toMatrix - K.toMatrix) *ᵥ d := by
  rw [toMatrix_regularize_eq_add hε, add_sub_cancel_left, add_mulVec, smul_mulVec]
  simp only [add_dotProduct, dotProduct_add, smul_dotProduct, dotProduct_smul, smul_eq_mul]
  rw [dotProduct_comm (K.toMatrix *ᵥ d) (diagonal (signs n p) *ᵥ d)]
  ring

variable (hdet : IsUnit (regularize ε K).toMatrix.det) (hK : IsMonotone K)

include hdet hK

/-- **What a solve takes off** the square of the length of a residual is at least that of the
product of the matrix with the solution. -/
theorem leftover_mulVec_dotProduct_self_add_le (r : Fin (n + p) → ℝ) :
    leftover ε K *ᵥ r ⬝ᵥ leftover ε K *ᵥ r
      + K.toMatrix *ᵥ (regularize ε K).toMatrix⁻¹ *ᵥ r
        ⬝ᵥ K.toMatrix *ᵥ (regularize ε K).toMatrix⁻¹ *ᵥ r ≤ r ⬝ᵥ r := by
  have hparts := regularize_mulVec_dotProduct_self hε (K := K) ((regularize ε K).toMatrix⁻¹ *ᵥ r)
  have hcross := mul_nonneg hε (hK ((regularize ε K).toMatrix⁻¹ *ᵥ r))
  rw [mulVec_mulVec, Matrix.mul_nonsing_inv _ hdet, one_mulVec] at hparts
  rw [leftover, ← mulVec_mulVec]
  linarith

/-- **No solve makes a residual longer.** -/
theorem leftover_mulVec_dotProduct_self_le (r : Fin (n + p) → ℝ) :
    leftover ε K *ᵥ r ⬝ᵥ leftover ε K *ᵥ r ≤ r ⬝ᵥ r := by
  have hsquare : 0 ≤ K.toMatrix *ᵥ (regularize ε K).toMatrix⁻¹ *ᵥ r
      ⬝ᵥ K.toMatrix *ᵥ (regularize ε K).toMatrix⁻¹ *ᵥ r := dotProduct_star_self_nonneg _
  linarith [leftover_mulVec_dotProduct_self_add_le hε hdet hK r]

/-- **Every solve makes a residual shorter** if the matrix is not singular. -/
theorem leftover_mulVec_dotProduct_self_lt (hsingular : K.toMatrix.det ≠ 0)
    {r : Fin (n + p) → ℝ} (hr : r ≠ 0) :
    leftover ε K *ᵥ r ⬝ᵥ leftover ε K *ᵥ r < r ⬝ᵥ r := by
  have hsolution : (regularize ε K).toMatrix⁻¹ *ᵥ r ≠ 0 := by
    intro h
    refine hr ?_
    rw [← one_mulVec r, ← Matrix.mul_nonsing_inv _ hdet, ← mulVec_mulVec, h, mulVec_zero]
  have hproduct : K.toMatrix *ᵥ (regularize ε K).toMatrix⁻¹ *ᵥ r ≠ 0 := fun h =>
    hsolution (eq_zero_of_mulVec_eq_zero hsingular h)
  have hsquare : 0 < K.toMatrix *ᵥ (regularize ε K).toMatrix⁻¹ *ᵥ r
      ⬝ᵥ K.toMatrix *ᵥ (regularize ε K).toMatrix⁻¹ *ᵥ r := dotProduct_star_self_pos_iff.mpr hproduct
  linarith [leftover_mulVec_dotProduct_self_add_le hε hdet hK r]

end Leftover

/-! ## The residual of a step -/

/-- **The norm of the residual** of a step `v` with multipliers `w`, over both rows of blocks. -/
noncomputable def residualNorm (H : Mat ℝ n n) (A : Mat ℝ p n) (g : Vec ℝ n) (r : Vec ℝ p)
    (v : Vec ℝ n) (w : Vec ℝ p) : ℝ :=
  √((H.toMatrix *ᵥ v.get + A.toMatrixᵀ *ᵥ w.get + g.get)
      ⬝ᵥ (H.toMatrix *ᵥ v.get + A.toMatrixᵀ *ᵥ w.get + g.get)
    + (A.toMatrix *ᵥ v.get + r.get) ⬝ᵥ (A.toMatrix *ᵥ v.get + r.get))

theorem residualNorm_eq (H : Mat ℝ n n) (A : Mat ℝ p n) (g : Vec ℝ n) (r : Vec ℝ p)
    (x : Vec ℝ (n + p)) {e : Fin (n + p) → ℝ}
    (he : (rightSide g r).get - (assemble H A (Mat.transpose A)).toMatrix *ᵥ x.get = e) :
    residualNorm H A g r (head x) (tail x) = √(e ⬝ᵥ e) := by
  have hparts : e = Fin.append
      (-(H.toMatrix *ᵥ (head x).get + A.toMatrixᵀ *ᵥ (tail x).get + g.get))
      (-(A.toMatrix *ᵥ (head x).get + r.get)) := by
    rw [← he, get_rightSide, assemble_mulVec, Mat.toMatrix_transpose]
    funext i
    refine Fin.addCases (fun i => ?_) (fun i => ?_) i
    · simp
      ring
    · simp
      ring
  rw [hparts, append_dotProduct_append, neg_dotProduct_neg, neg_dotProduct_neg, residualNorm]

end Block

namespace Solver

/-- The same solver, with another number of refinement steps. -/
def refining {α : Type} [Scalar α] (s : Solver α) (k : ℕ) : Solver α :=
  { s with settings := { s.settings with refinements := k } }

/-- **The residual of a block step** with any number of refinement steps, of which the answer that
there is a step does not depend. -/
theorem exists_of_outcome_solveBlock_refining {s : Solver ℝ}
    (hvalid : s.settings.validate = .ok ()) {H : Mat ℝ n n} {A : Mat ℝ p n} {T : Mat ℝ n p}
    {g : Vec ℝ n} {r : Vec ℝ p} {step : Step ℝ n}
    (hstep : (s.solveBlock H A T g r).outcome = .ok step) (k : ℕ) :
    ∃ x, ((s.refining k).solveBlock H A T g r).outcome = .ok (blockStep H x) ∧
      (Block.rightSide g r).get - (Block.assemble H A T).toMatrix *ᵥ x.get
        = Block.leftover s.settings.regularization (Block.assemble H A T) ^ (k + 1)
          *ᵥ (Block.rightSide g r).get := by
  obtain ⟨hinertia, hpivots, x, hx, -⟩ := outcome_solveBlock_eq_ok.mp hstep
  refine ⟨_, outcome_solveBlock_eq_ok.mpr ⟨hinertia, hpivots, x, hx, rfl⟩, ?_⟩
  exact residual_refine_of_mulVec_eq (isUnit_det_of_outcome_checkPivots hvalid hpivots)
    (exists_solve?_of_outcome_checkPivots hvalid hpivots) hx k

end Solver

/-- **The law of the refinement of a block step.** If the Hessian has no negative curvature and a
solve under equations of any rank has a step, it has one with every number of refinement steps, and
the norms of the residuals never go up: the first is at most that of the right-hand side, and with
one more step of refinement it is not larger, and smaller if the matrix of the system is not
singular and the residual not zero. -/
theorem block_refinement_law (s : Solver ℝ) (H : Mat ℝ n n)
    (hH : ∀ x, 0 ≤ x ⬝ᵥ H.toMatrix *ᵥ x) (A : Mat ℝ p n) (g : Vec ℝ n) (r : Vec ℝ p)
    (hsolve : ∃ step,
      (s.solve (.ofMat H) (.ofMat A) (.ofMat (Mat.transpose A)) g r).outcome = .ok step) :
    ∃ (step : ℕ → Step ℝ n) (w : ℕ → Vec ℝ p), ∀ k,
      ((s.refining k).solve (.ofMat H) (.ofMat A) (.ofMat (Mat.transpose A)) g r).outcome
        = .ok (step k) ∧
      (step k).w = some (w k).toArray ∧
      Block.residualNorm H A g r (step (k + 1)).v (w (k + 1))
        ≤ Block.residualNorm H A g r (step k).v (w k) ∧
      Block.residualNorm H A g r (step k).v (w k) ≤ √(g.get ⬝ᵥ g.get + r.get ⬝ᵥ r.get) ∧
      ((fromBlocks H.toMatrix A.toMatrixᵀ A.toMatrix 0).det ≠ 0 →
        0 < Block.residualNorm H A g r (step k).v (w k) →
        Block.residualNorm H A g r (step (k + 1)).v (w (k + 1))
          < Block.residualNorm H A g r (step k).v (w k)) := by
  obtain ⟨step, hstep⟩ := hsolve
  obtain ⟨hvalid, hn, H', A', T', hH', hA', hT', htranspose, hblock⟩ :=
    Solver.outcome_solve_eq_ok.mp hstep
  obtain rfl := Dense.ofMat_inj hH'
  obtain rfl := Dense.ofMat_inj hA'
  obtain rfl := Dense.ofMat_inj hT'
  have hreg := ((Settings.validate_eq_ok_iff _).mp hvalid).1
  have hdet : IsUnit (s.blockMatrix H A (Mat.transpose A)).toMatrix.det :=
    Solver.isUnit_det_of_outcome_checkPivots hvalid (Solver.outcome_solveBlock_eq_ok.mp hblock).2.1
  have hmonotone := Block.isMonotone_assemble hH A
  have hshorter := Block.leftover_mulVec_dotProduct_self_le hreg hdet hmonotone
  choose x hx hresidual using Solver.exists_of_outcome_solveBlock_refining hvalid hblock
  have hnorm := fun k => Block.residualNorm_eq H A g r (x k) (hresidual k)
  refine ⟨fun k => Solver.blockStep H (x k), fun k => Block.tail (x k), fun k =>
    ⟨(Solver.outcome_solve (s := s.refining k) hvalid hn htranspose g r).trans (hx k), rfl, ?_⟩⟩
  dsimp only [Solver.blockStep]
  rw [hnorm, hnorm, pow_succ' _ (k + 1), ← mulVec_mulVec]
  refine ⟨Real.sqrt_le_sqrt (hshorter _), Real.sqrt_le_sqrt ?_, fun hsingular hpos => ?_⟩
  · refine (Mat.pow_mulVec_dotProduct_self_le_self hshorter (k + 1) _).trans_eq ?_
    rw [Block.get_rightSide, Block.append_dotProduct_append, neg_dotProduct_neg,
      neg_dotProduct_neg]
  · rw [← Mat.toMatrix_transpose, ← Block.det_assemble] at hsingular
    have hne : Block.leftover s.settings.regularization (Block.assemble H A (Mat.transpose A))
        ^ (k + 1) *ᵥ (Block.rightSide g r).get ≠ 0 := by
      intro h
      rw [h, dotProduct_zero, Real.sqrt_zero] at hpos
      exact lt_irrefl _ hpos
    exact Real.sqrt_lt_sqrt (dotProduct_star_self_nonneg _)
      (Block.leftover_mulVec_dotProduct_self_lt hreg hdet hmonotone hsingular hne)

namespace Solver

/-- The exchange with a regularization of one, with the last entry that elimination has got to. -/
noncomputable def shiftedExchange (a : ℝ) : Mat ℝ (1 + 1) (1 + 1) := Mat.of ![![1, 1], ![1, a]]

theorem blockMatrix_shifted : shifted.blockMatrix #v[#v[0]] #v[#v[1]] (Mat.transpose #v[#v[1]])
    = shiftedExchange (-1) := by
  have hreg : shifted.settings.regularization = 1 := rfl
  unfold blockMatrix Block.regularize
  rw [hreg, if_pos one_pos]
  refine Mat.ext_entry fun i j => ?_
  have hexchange := entry_exchange i j
  unfold exchange at hexchange
  rw [Mat.entry_of, hexchange]
  fin_cases i <;> fin_cases j <;> simp [shiftedExchange]

/-- Elimination exchanges no rows and changes nothing but the last entry. -/
theorem packed_eliminate_shiftedExchange {F : Lu ℝ (1 + 1)} {a : ℝ}
    (hF : F.packed = shiftedExchange a) {k : Fin (1 + 1)}
    (hk : Mat.entry (shiftedExchange a) k k ≠ 0) :
    (F.eliminate k).packed = shiftedExchange (if k = 1 then a else a - 1) := by
  have hpivot : Lu.pivotRow F.packed k = k := by
    rw [hF]
    fin_cases k <;> norm_num [Lu.pivotRow, Fin.foldl_succ, shiftedExchange]
  rw [Lu.eliminate_of_pivot_ne_zero (by rwa [hpivot, hF])]
  dsimp only
  rw [hpivot, hF]
  refine Mat.ext_entry fun i j => ?_
  rw [Lu.entry_clearColumn]
  fin_cases k <;> fin_cases i <;> fin_cases j <;>
    simp [Mat.entry_swapRows, shiftedExchange, neg_add_eq_sub]

theorem pivots_shiftedExchange : (Lu.factor (shiftedExchange (-1))).pivots.toList = [1, -2] := by
  have hfirst := packed_eliminate_shiftedExchange (F := ⟨shiftedExchange (-1), []⟩) (k := 0) rfl
    (by simp [shiftedExchange])
  rw [if_neg (by decide)] at hfirst
  have hlast := packed_eliminate_shiftedExchange (k := 1) hfirst
    (by norm_num [shiftedExchange])
  rw [if_pos rfl] at hlast
  have hfactor : (Lu.factor (shiftedExchange (-1))).packed = shiftedExchange (-2) :=
    hlast.trans (congrArg shiftedExchange (by norm_num))
  rw [Lu.pivots, hfactor]
  rfl

theorem outcome_checkPivots_shiftedExchange :
    (shifted.checkPivots (Lu.factor (shiftedExchange (-1)))).outcome = .ok () := by
  have htolerance : shifted.settings.pivotTolerance * 2 < 1 := by
    show ((1 : ℕ) : ℝ) / ((Nat.pow 10 13 : ℕ) : ℝ) * 2 < 1
    norm_num
  rw [outcome_checkPivots, pivots_shiftedExchange]
  refine if_neg ?_
  simpa [Vec.smallestAbs, Vec.largestAbs] using htolerance

end Solver

/-- The law for the exchange, of which neither the matrix nor the regularized one is definite. -/
theorem block_refinement_law_exchange :
    (∀ x : Fin 1 → ℝ, 0 ≤ x ⬝ᵥ Mat.toMatrix (#v[#v[0]] : Mat ℝ 1 1) *ᵥ x) ∧
    (∃ step : Step ℝ 1, (Solver.shifted.solve (.ofMat #v[#v[0]]) (.ofMat #v[#v[1]])
        (.ofMat (Mat.transpose #v[#v[1]])) #v[-3] #v[-4]).outcome = .ok step) ∧
    ∃ (step : ℕ → Step ℝ 1) (w : ℕ → Vec ℝ 1), ∀ k,
      ((Solver.shifted.refining k).solve (.ofMat #v[#v[0]]) (.ofMat #v[#v[1]])
        (.ofMat (Mat.transpose #v[#v[1]])) #v[-3] #v[-4]).outcome = .ok (step k) ∧
      Block.residualNorm #v[#v[0]] #v[#v[1]] #v[-3] #v[-4] (step k).v (w k) ≤ 5 ∧
      (0 < Block.residualNorm #v[#v[0]] #v[#v[1]] #v[-3] #v[-4] (step k).v (w k) →
        Block.residualNorm #v[#v[0]] #v[#v[1]] #v[-3] #v[-4] (step (k + 1)).v (w (k + 1))
          < Block.residualNorm #v[#v[0]] #v[#v[1]] #v[-3] #v[-4] (step k).v (w k)) := by
  have hform : ∀ x : Fin 1 → ℝ, 0 ≤ x ⬝ᵥ Mat.toMatrix (#v[#v[0]] : Mat ℝ 1 1) *ᵥ x := by
    intro x
    rw [dotProduct, Fin.sum_univ_one, Matrix.mulVec, dotProduct, Fin.sum_univ_one]
    show 0 ≤ x 0 * ((0 : ℝ) * x 0)
    rw [zero_mul, mul_zero]
  have hsolve : ∃ step : Step ℝ 1, (Solver.shifted.solve (.ofMat #v[#v[0]]) (.ofMat #v[#v[1]])
      (.ofMat (Mat.transpose #v[#v[1]])) #v[-3] #v[-4]).outcome = .ok step := by
    rw [Solver.outcome_solve Solver.validate_shifted one_ne_zero
      (Dense.checkTranspose_symmetryTolerance _)]
    exact (Solver.exists_outcome_solveBlock_iff Solver.validate_shifted _ _ _ _ _).mpr
      ⟨rfl, Solver.blockMatrix_shifted ▸ Solver.outcome_checkPivots_shiftedExchange⟩
  have hsingular : (fromBlocks (Mat.toMatrix (#v[#v[0]] : Mat ℝ 1 1))
      (Mat.toMatrix (#v[#v[1]] : Mat ℝ 1 1))ᵀ (Mat.toMatrix (#v[#v[1]] : Mat ℝ 1 1)) 0).det
      ≠ 0 := by
    have hdet := Block.det_assemble (#v[#v[0]] : Mat ℝ 1 1) (#v[#v[1]] : Mat ℝ 1 1)
      (Mat.transpose #v[#v[1]])
    rw [Mat.toMatrix_transpose] at hdet
    rw [← hdet]
    show Solver.exchange.toMatrix.det ≠ 0
    rw [Matrix.det_fin_two]
    simp [Solver.entry_exchange]
  have hright : √((#v[-3] : Vec ℝ 1).get ⬝ᵥ (#v[-3] : Vec ℝ 1).get
      + (#v[-4] : Vec ℝ 1).get ⬝ᵥ (#v[-4] : Vec ℝ 1).get) = 5 := by
    rw [Real.sqrt_eq_iff_mul_self_eq_of_pos (by norm_num), dotProduct, dotProduct,
      Fin.sum_univ_one, Fin.sum_univ_one]
    show (5 : ℝ) * 5 = -3 * -3 + -4 * -4
    norm_num
  obtain ⟨step, w, hlaw⟩ := block_refinement_law Solver.shifted #v[#v[0]] hform #v[#v[1]] #v[-3]
    #v[-4] hsolve
  refine ⟨hform, hsolve, step, w, fun k => ?_⟩
  obtain ⟨hstep, -, -, hbound, hstrict⟩ := hlaw k
  exact ⟨hstep, hbound.trans_eq hright, hstrict hsingular⟩

end InteriorPoint

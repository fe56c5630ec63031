import InteriorPoint.Proofs.Kkt.BlockDecrement
import InteriorPoint.Proofs.Kkt.Superposition
import InteriorPoint.Proofs.Linear.Scaled

/-!
# Solving in another unit

A function in another unit has its gradient and Hessian multiplied by the same number `c`. If the
equations are multiplied by `c` too, every entry of the block system is, and its solution stays what
it is.

So does the verdict, because every test of a solve is homogeneous. The pivots are compared with each
other and so are the eigenvalues, in both cases through a tolerance that is relative; and whether a
matrix is positive definite does not depend on the unit. A refusal is the same refusal in another
unit: the counts in it stay, and the sizes in it are `c` times as large (`Failure.inUnits`).

All this is without regularization, which has the unit of the Hessian and is not changed with it.
-/

open Matrix

namespace InteriorPoint

variable {n p : ℕ} {c : ℝ}

/-! ## Answers in another unit -/

/-- Why a system counts as singular, in another unit. Counts and relative tolerances have none. -/
noncomputable def SingularSystem.inUnits (c : ℝ) : SingularSystem ℝ → SingularSystem ℝ
  | .eigenvalues count size tolerance => .eigenvalues count size (c * tolerance)
  | .pivot smallest tolerance largest => .pivot (c * smallest) tolerance (c * largest)
  | .zeroPivot => .zeroPivot
  | .other text => .other text

/-- **A failure in another unit** is of the same kind, and only a singular system has sizes in its
cause. -/
noncomputable def Failure.inUnits (c : ℝ) : Failure ℝ → Failure ℝ
  | .error (.singularSystem cause) => .error (.singularSystem (cause.inUnits c))
  | e => e

/-- **A step in another unit**: direction and multipliers have none. -/
noncomputable def Step.inUnits (c : ℝ) (step : Step ℝ n) : Step ℝ n :=
  { step with decrementSquared := c * step.decrementSquared }

/-! ## The checks -/

/-- **The signs of the eigenvalues** are counted alike in every unit, and in any order. -/
theorem Inertia.ofList_scaled (hc : 0 < c) (tolerance : ℝ) {l l' : List ℝ}
    (hl : l'.Perm (l.map (c * ·))) : ofList (c * tolerance) l' = ofList tolerance l := by
  have hvanishes : ∀ v, vanishes (c * tolerance) (c * v) ↔ vanishes tolerance v := by
    intro v
    rw [vanishes_iff, vanishes_iff, abs_mul, abs_of_pos hc]
    exact mul_le_mul_iff_right₀ hc
  have hpositive : ∀ v, 0 < c * v ↔ 0 < v := fun v => mul_pos_iff_of_pos_left hc
  unfold ofList
  rw [hl.countP_eq, hl.countP_eq, hl.countP_eq, List.countP_map, List.countP_map, List.countP_map]
  simp only [Function.comp_def, hvanishes, hpositive]

theorem Inertia.outcome_check_scaled (hc : 0 < c) (pivotTolerance : ℝ) (n p : ℕ) {l l' : List ℝ}
    (hl : l'.Perm (l.map (c * ·))) :
    (check pivotTolerance n p l').outcome
      = (check pivotTolerance n p l).outcome.mapError (Failure.inUnits c) := by
  have htolerance :
      pivotTolerance * Vec.largestAbs l' = c * (pivotTolerance * Vec.largestAbs l) := by
    rw [Vec.largestAbs_eq_of_perm hl, Vec.largestAbs_map_mul hc.le, mul_left_comm]
  rw [outcome_check, outcome_check, htolerance, ofList_scaled hc _ hl]
  split_ifs
  · rfl
  · rfl
  · rfl

namespace Solver

variable {s : Solver ℝ}

/-- **The check of the pivots** says the same in every unit. -/
theorem outcome_checkPivots_scaled (hc : 0 < c) (s : Solver ℝ) (M : Mat ℝ n n) :
    (s.checkPivots (Lu.factor (Mat.scaled c M))).outcome
      = (s.checkPivots (Lu.factor M)).outcome.mapError (Failure.inUnits c) := by
  have hsmall : ∀ smallest largest : ℝ,
      (Scalar.isNaN (c * smallest) = true ∨
          c * smallest ≤ s.settings.pivotTolerance * (c * largest)) ↔
        Scalar.isNaN smallest = true ∨ smallest ≤ s.settings.pivotTolerance * largest := by
    intro smallest largest
    rw [mul_left_comm, mul_le_mul_iff_right₀ hc]
    rfl
  rw [outcome_checkPivots, outcome_checkPivots, Lu.pivots_factor_scaled hc.ne',
    Vec.smallestAbs_map_mul hc.le, Vec.largestAbs_map_mul hc.le, if_congr (hsmall _ _) rfl rfl,
    apply_ite (Except.mapError (Failure.inUnits c))]
  rfl

/-- **The check of the signs** says the same in every unit. -/
theorem outcome_checkInertia_scaled (hc : 0 < c) {K : Mat ℝ (n + p) (n + p)}
    (hspectrum : s.settings.checkInertia = true →
      s.FindsSpectrum K ∧ s.FindsSpectrum (Mat.scaled c K)) :
    (s.checkInertia n p (Mat.scaled c K)).outcome
      = (s.checkInertia n p K).outcome.mapError (Failure.inUnits c) := by
  by_cases hcheck : s.settings.checkInertia = true
  · obtain ⟨⟨d, hd, hroots⟩, ⟨d', hd', hroots'⟩⟩ := hspectrum hcheck
    have hperm : d'.toList.Perm (d.toList.map (c * ·)) := by
      rw [← Multiset.coe_eq_coe, ← Multiset.map_coe, hroots, hroots', Mat.mirrored_scaled,
        roots_charpoly_smul hc.ne']
    rw [outcome_checkInertia hcheck hd, outcome_checkInertia hcheck hd']
    exact Inertia.outcome_check_scaled hc _ n p hperm
  · rw [checkInertia, checkInertia, if_neg hcheck, if_neg hcheck]
    rfl

/-- What is not admitted has no unit. -/
theorem inUnits_of_admission_eq_error {e : Failure ℝ} (h : s.admission n = .error e) :
    e.inUnits c = e := by
  unfold admission at h
  cases hvalid : s.settings.validate with
  | error e' =>
    obtain ⟨cause, rfl⟩ := Settings.exists_of_validate_eq_error hvalid
    rw [hvalid] at h
    rw [← Except.error.inj h]
    rfl
  | ok _ =>
    rw [hvalid] at h
    by_cases hn : n = 0
    · rw [← Except.error.inj ((if_pos hn).symm.trans h)]
      rfl
    · exact nomatch (if_neg hn).symm.trans h

/-- **The admission looks at no matrix**, so it says the same in every unit. -/
theorem admission_bind_inUnits {x y : Except (Failure ℝ) (Step ℝ n)}
    (h : s.admission n = .ok () → y = (x.mapError (Failure.inUnits c)).map (Step.inUnits c)) :
    ((s.admission n).bind fun _ => y)
      = (((s.admission n).bind fun _ => x).mapError (Failure.inUnits c)).map
          (Step.inUnits c) := by
  cases hn : s.admission n with
  | error e => exact congrArg Except.error (inUnits_of_admission_eq_error hn).symm
  | ok _ => exact h hn

end Solver

/-! ## With equations -/

theorem Block.assemble_scaled (c : ℝ) (H : Mat ℝ n n) (A : Mat ℝ p n) (T : Mat ℝ n p) :
    assemble (Mat.scaled c H) (Mat.scaled c A) (Mat.scaled c T)
      = Mat.scaled c (assemble H A T) := by
  refine Mat.ext_entry fun i j => ?_
  refine Fin.addCases (fun i => ?_) (fun i => ?_) i <;>
    refine Fin.addCases (fun j => ?_) (fun j => ?_) j <;> simp

theorem Vec.get_scale_eq (x : Vec ℝ n) (c : ℝ) : (scale x c).get = c • x.get :=
  funext fun i => (get_scale x c i).trans (mul_comm _ _)

namespace Solver

variable {s : Solver ℝ}

theorem blockMatrix_scaled (hreg : s.settings.regularization = 0) (c : ℝ) (H : Mat ℝ n n)
    (A : Mat ℝ p n) (T : Mat ℝ n p) :
    s.blockMatrix (Mat.scaled c H) (Mat.scaled c A) (Mat.scaled c T)
      = Mat.scaled c (s.blockMatrix H A T) := by
  rw [blockMatrix_of_regularization hreg, blockMatrix_of_regularization hreg,
    Block.assemble_scaled]

/-- What a block solve makes of a right-hand side has the inverse unit. -/
theorem blockResponse_scaled (hreg : s.settings.regularization = 0) (hc : c ≠ 0) {H : Mat ℝ n n}
    {A : Mat ℝ p n} {T : Mat ℝ n p} (hdet : IsUnit (s.blockMatrix H A T).toMatrix.det)
    (z : (Fin n → ℝ) × (Fin p → ℝ)) :
    s.blockResponse (Mat.scaled c H) (Mat.scaled c A) (Mat.scaled c T) (c • z)
      = s.blockResponse H A T z := by
  rw [blockResponse_apply, blockResponse_apply, blockMatrix_scaled hreg, Block.assemble_scaled,
    Mat.toMatrix_scaled, Mat.toMatrix_scaled, refinedInverse_smul hdet _ hc, ← smul_neg, map_smul,
    mulVec_smul, smul_mulVec, smul_inv_smul₀ hc]

theorem blockStep_scaled (c : ℝ) (H : Mat ℝ n n) (x : Vec ℝ (n + p)) :
    blockStep (Mat.scaled c H) x = (blockStep H x).inUnits c := by
  have hcurvature : Vec.dot (Block.head x) (Mat.mulVec (Mat.scaled c H) (Block.head x))
      = c * Vec.dot (Block.head x) (Mat.mulVec H (Block.head x)) := by
    rw [Vec.dot_eq, Vec.dot_eq, Mat.get_mulVec_eq, Mat.get_mulVec_eq, Mat.toMatrix_scaled,
      smul_mulVec, dotProduct_smul, smul_eq_mul]
  unfold blockStep Step.inUnits
  rw [hcurvature]

/-- **A block solve in another unit.** -/
theorem outcome_solveBlock_scaled (hvalid : s.settings.validate = .ok ())
    (hreg : s.settings.regularization = 0) (hc : 0 < c) {H : Mat ℝ n n} {A : Mat ℝ p n}
    {T : Mat ℝ n p}
    (hspectrum : s.settings.checkInertia = true → s.FindsSpectrum (s.blockMatrix H A T) ∧
      s.FindsSpectrum (Mat.scaled c (s.blockMatrix H A T))) (g : Vec ℝ n) (r : Vec ℝ p) :
    (s.solveBlock (Mat.scaled c H) (Mat.scaled c A) (Mat.scaled c T) (Vec.scale g c)
        (Vec.scale r c)).outcome
      = ((s.solveBlock H A T g r).outcome.mapError (Failure.inUnits c)).map (Step.inUnits c) := by
  have hinertia' := outcome_checkInertia_scaled hc hspectrum
  have hpivots' := outcome_checkPivots_scaled hc s (s.blockMatrix H A T)
  rw [← blockMatrix_scaled hreg] at hinertia' hpivots'
  -- the checks refuse in both units or in none, and behind them the solution is the same vector
  cases hinertia : (s.checkInertia n p (s.blockMatrix H A T)).outcome with
  | error e =>
    rw [outcome_solveBlock, outcome_solveBlock, hinertia', hinertia]
    rfl
  | ok _ =>
    cases hpivots : (s.checkPivots (Lu.factor (s.blockMatrix H A T))).outcome with
    | error e =>
      rw [outcome_solveBlock, outcome_solveBlock, hinertia', hinertia, hpivots', hpivots]
      rfl
    | ok _ =>
      rw [hinertia] at hinertia'
      rw [hpivots] at hpivots'
      obtain ⟨x, hx, hlinear, -⟩ := exists_outcome_solveBlock_throughout hvalid hinertia hpivots g r
      obtain ⟨x', hx', hlinear', -⟩ := exists_outcome_solveBlock_throughout hvalid hinertia'
        hpivots' (Vec.scale g c) (Vec.scale r c)
      rw [Vec.get_scale_eq, Vec.get_scale_eq, ← Prod.smul_mk, blockResponse_scaled hreg hc.ne'
        (isUnit_det_of_outcome_checkPivots hvalid hpivots), ← hlinear, ← Block.pairs_symm_apply,
        ← Block.pairs_symm_apply] at hlinear'
      have hsame : x' = x := Vec.ext_get (congrFun ((Block.pairs n p).symm.injective hlinear'))
      rw [hx, hx', hsame, blockStep_scaled]
      rfl

/-- **A solve under equations in another unit.** -/
theorem outcome_solve_scaled (hreg : s.settings.regularization = 0) (hc : 0 < c) {H : Mat ℝ n n}
    {A : Mat ℝ p n}
    (hspectrum : s.settings.checkInertia = true →
      s.FindsSpectrum (s.blockMatrix H A (Mat.transpose A)) ∧
      s.FindsSpectrum (Mat.scaled c (s.blockMatrix H A (Mat.transpose A)))) (g : Vec ℝ n)
    (r : Vec ℝ p) :
    (s.solve (.ofMat (Mat.scaled c H)) (.ofMat (Mat.scaled c A))
        (.ofMat (Mat.scaled c (Mat.transpose A))) (Vec.scale g c) (Vec.scale r c)).outcome
      = ((s.solve (.ofMat H) (.ofMat A) (.ofMat (Mat.transpose A)) g r).outcome.mapError
          (Failure.inUnits c)).map (Step.inUnits c) := by
  have htranspose := Dense.checkTranspose_symmetryTolerance (Mat.scaled c A)
  rw [Mat.transpose_scaled] at htranspose
  rw [outcome_solve_ofMat, outcome_solve_ofMat, htranspose, Dense.checkTranspose_symmetryTolerance]
  exact admission_bind_inUnits fun hn =>
    outcome_solveBlock_scaled (admission_eq_ok_iff.mp hn).1 hreg hc hspectrum g r

/-! ## Without equations -/

theorem shiftDiagonal_scaled (hreg : s.settings.regularization = 0) (c : ℝ) (H : Mat ℝ n n) :
    Block.shiftDiagonal s.settings.regularization (Mat.scaled c H)
      = Mat.scaled c (Block.shiftDiagonal s.settings.regularization H) := by
  unfold Block.shiftDiagonal
  refine Mat.ext_entry fun i j => ?_
  simp only [hreg, add_zero, ite_self, Mat.entry_of, Mat.entry_scaled]

/-- **Whether the lower triangle is that of a positive definite matrix** does not depend on the
unit. -/
theorem posDef_mirrored_scaled_iff (hc : 0 < c) (M : Mat ℝ n n) :
    (Mat.scaled c M).mirrored.PosDef ↔ M.mirrored.PosDef := by
  rw [Mat.mirrored_scaled]
  refine ⟨fun h => ?_, fun h => h.smul hc⟩
  have hback := h.smul (inv_pos.mpr hc)
  rwa [inv_smul_smul₀ hc.ne'] at hback

theorem reducedResponse_scaled (hreg : s.settings.regularization = 0) (hc : c ≠ 0) {H : Mat ℝ n n}
    (hposDef : (Block.shiftDiagonal s.settings.regularization H).mirrored.PosDef)
    (g : Fin n → ℝ) :
    s.reducedResponse (Mat.scaled c H) (c • g) = s.reducedResponse H g := by
  have hdet := (Matrix.isUnit_iff_isUnit_det _).mp hposDef.isUnit
  rw [reducedResponse_apply, reducedResponse_apply, shiftDiagonal_scaled hreg, Mat.mirrored_scaled,
    Mat.toMatrix_scaled, refinedInverse_smul hdet _ hc, ← smul_neg, mulVec_smul, smul_mulVec,
    smul_inv_smul₀ hc]

theorem reducedStep_scaled (g : Vec ℝ n) (c : ℝ) (v : Vec ℝ n) :
    reducedStep (Vec.scale g c) v = (reducedStep g v).inUnits c := by
  have hslope : -Vec.dot (Vec.scale g c) v = c * -Vec.dot g v := by
    rw [Vec.dot_eq, Vec.dot_eq, Vec.get_scale_eq, smul_dotProduct, smul_eq_mul, mul_neg]
  unfold reducedStep Step.inUnits
  rw [hslope]

/-- **A reduced solve in another unit.** -/
theorem outcome_solveDense_scaled (hreg : s.settings.regularization = 0) (hc : 0 < c)
    (H : Mat ℝ n n) (g : Vec ℝ n) :
    (s.solveDense (Mat.scaled c H) (Vec.scale g c)).outcome
      = ((s.solveDense H g).outcome.mapError (Failure.inUnits c)).map (Step.inUnits c) := by
  have hiff := posDef_mirrored_scaled_iff hc (Block.shiftDiagonal s.settings.regularization H)
  rw [← shiftDiagonal_scaled hreg] at hiff
  by_cases hposDef : (Block.shiftDiagonal s.settings.regularization H).mirrored.PosDef
  · obtain ⟨v, hv, hlinear, -⟩ := exists_outcome_solveDense_throughout hposDef g
    obtain ⟨v', hv', hlinear', -⟩ := exists_outcome_solveDense_throughout (hiff.mpr hposDef)
      (Vec.scale g c)
    rw [Vec.get_scale_eq, reducedResponse_scaled hreg hc.ne' hposDef, ← hlinear] at hlinear'
    rw [hv, hv', Vec.ext_get (congrFun hlinear'), reducedStep_scaled]
    rfl
  · rw [outcome_solveDense_of_not_posDef hposDef,
      outcome_solveDense_of_not_posDef (hiff.not.mpr hposDef)]
    rfl

/-- **A solve without equations in another unit.** -/
theorem outcome_solveReduced_scaled (hreg : s.settings.regularization = 0) (hc : 0 < c)
    (H : Mat ℝ n n) (g : Vec ℝ n) :
    (s.solveReduced (.ofMat (Mat.scaled c H)) (Vec.scale g c)).outcome
      = ((s.solveReduced (.ofMat H) g).outcome.mapError (Failure.inUnits c)).map
          (Step.inUnits c) := by
  rw [outcome_solveReduced_ofMat, outcome_solveReduced_ofMat]
  exact admission_bind_inUnits fun _ => outcome_solveDense_scaled hreg hc H g

end Solver

/-- **The law of units.** Without regularization, matrices, gradient and residual that are all
multiplied by the same positive number have the same answer in the new unit: the same direction and
multipliers and the squared decrement multiplied by that number, or a refusal of the same kind. For
the solve under equations the eigenvalues have to be found in both units, if their signs are
checked. The Hessian may be any matrix. -/
theorem unit_law (s : Solver ℝ) (hreg : s.settings.regularization = 0) (hc : 0 < c) (H : Mat ℝ n n)
    (A : Mat ℝ p n) (g : Vec ℝ n) (r : Vec ℝ p) :
    ((s.settings.checkInertia = true →
        s.FindsSpectrum (s.blockMatrix H A (Mat.transpose A)) ∧
        s.FindsSpectrum (s.blockMatrix (Mat.scaled c H) (Mat.scaled c A)
          (Mat.scaled c (Mat.transpose A)))) →
      (s.solve (.ofMat (Mat.scaled c H)) (.ofMat (Mat.scaled c A))
          (.ofMat (Mat.scaled c (Mat.transpose A))) (Vec.scale g c) (Vec.scale r c)).outcome
        = ((s.solve (.ofMat H) (.ofMat A) (.ofMat (Mat.transpose A)) g r).outcome.mapError
            (Failure.inUnits c)).map (Step.inUnits c)) ∧
    (s.solveReduced (.ofMat (Mat.scaled c H)) (Vec.scale g c)).outcome
      = ((s.solveReduced (.ofMat H) g).outcome.mapError (Failure.inUnits c)).map
          (Step.inUnits c) := by
  refine ⟨fun hspectrum => ?_, Solver.outcome_solveReduced_scaled hreg hc H g⟩
  rw [Solver.blockMatrix_scaled hreg] at hspectrum
  exact Solver.outcome_solve_scaled hreg hc hspectrum g r

/-- The law on a pass, in a unit that makes every entry smaller than any tolerance: the step is
still there. -/
theorem unit_law_pass :
    Solver.spectral.settings.regularization = 0 ∧ (0 : ℝ) < 1 / 10 ^ 20 ∧
    ∃ step : Step ℝ 2, (Solver.spectral.solve (.ofMat Solver.pass) (.ofMat Solver.acrossPass)
        (.ofMat (Mat.transpose Solver.acrossPass)) #v[-2, 0] (#v[0] : Vec ℝ 1)).outcome = .ok step ∧
      (Solver.spectral.solve (.ofMat (Mat.scaled (1 / 10 ^ 20) Solver.pass))
        (.ofMat (Mat.scaled (1 / 10 ^ 20) Solver.acrossPass))
        (.ofMat (Mat.scaled (1 / 10 ^ 20) (Mat.transpose Solver.acrossPass)))
        (Vec.scale #v[-2, 0] (1 / 10 ^ 20)) (Vec.scale (#v[0] : Vec ℝ 1) (1 / 10 ^ 20))).outcome
        = .ok { step with decrementSquared := 1 / 10 ^ 20 * step.decrementSquared } := by
  have hc : (0 : ℝ) < 1 / 10 ^ 20 := by positivity
  obtain ⟨step, hstep⟩ := Solver.exists_outcome_solve_pass #v[-2, 0] #v[0]
  obtain ⟨hsolve, -⟩ := unit_law Solver.spectral rfl hc Solver.pass Solver.acrossPass #v[-2, 0]
    #v[0]
  have hscaled := hsolve fun _ =>
    ⟨Solver.findsSpectrum_spectral _, Solver.findsSpectrum_spectral _⟩
  rw [hstep] at hscaled
  exact ⟨rfl, hc, step, hstep, hscaled⟩

end InteriorPoint

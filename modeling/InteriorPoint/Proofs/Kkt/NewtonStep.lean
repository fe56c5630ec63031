import InteriorPoint.Proofs.Kkt.BlockSystem
import InteriorPoint.Proofs.Kkt.CheckedPivots
import InteriorPoint.Proofs.Linear.Checks
import InteriorPoint.Proofs.Linear.SquareRoot

/-!
# What a Newton step is

Over the real numbers a step without regularization solves its system exactly. With equations it
does so whenever there is one, and there is none for a singular block matrix: a singular matrix has
a zero pivot, which the check of the pivots refuses whatever its tolerance
(`block_solve_law`). Without equations there is a step exactly if the regularized Hessian is
positive definite (`reduced_solve_law`).
-/

open Matrix

namespace InteriorPoint

variable {n p : ℕ}

namespace Solver

/-! ## With equations -/

/-- **A pivot that is zero is refused**, whatever the tolerance. -/
theorem outcome_checkPivots_of_pivot_eq_zero {s : Solver ℝ} (hvalid : s.settings.validate = .ok ())
    {m : ℕ} {F : Lu ℝ m} {i : Fin m} (hi : F.pivots.get i = 0) :
    ∃ cause, (s.checkPivots F).outcome = .error (.error (.singularSystem cause)) :=
  outcome_checkPivots_of_beq_zero hvalid (fun _ => rfl) ((Scalar.beq_iff _ _).mpr hi)

/-- After the check of the pivots, none of them is zero. -/
theorem pivots_ne_zero_of_outcome_checkPivots {s : Solver ℝ}
    (hvalid : s.settings.validate = .ok ()) {m : ℕ} {F : Lu ℝ m}
    (hF : (s.checkPivots F).outcome = .ok ()) (i : Fin m) : F.pivots.get i ≠ 0 :=
  of_decide_eq_false (get_pivots_beq_zero hvalid hF (fun _ => rfl) i)

/-- A matrix with checked pivots is not singular. -/
theorem isUnit_det_of_outcome_checkPivots {s : Solver ℝ} (hvalid : s.settings.validate = .ok ())
    {m : ℕ} {M : Mat ℝ m m} (hM : (s.checkPivots (Lu.factor M)).outcome = .ok ()) :
    IsUnit M.toMatrix.det := by
  refine isUnit_iff_ne_zero.mpr fun hdet => ?_
  obtain ⟨i, hi⟩ := (Lu.det_eq_zero_iff _).mp hdet
  exact pivots_ne_zero_of_outcome_checkPivots hvalid hM i hi

/-- **The factors of checked pivots solve every system.** -/
theorem exists_solve?_of_outcome_checkPivots {s : Solver ℝ}
    (hvalid : s.settings.validate = .ok ()) {m : ℕ} {M : Mat ℝ m m}
    (hM : (s.checkPivots (Lu.factor M)).outcome = .ok ()) (b : Vec ℝ m) :
    ∃ x, (Lu.factor M).solve? b = some x ∧ M.toMatrix *ᵥ x.get = b.get := by
  obtain ⟨x, hx⟩ := Option.isSome_iff_exists.mp (isSome_solve? hvalid hM b)
  exact ⟨x, hx, Lu.mulVec_of_solve? hx⟩

/-- A block solve has a step exactly if both checks pass. -/
theorem exists_outcome_solveBlock_iff {s : Solver ℝ} (hvalid : s.settings.validate = .ok ())
    (H : Mat ℝ n n) (A : Mat ℝ p n) (T : Mat ℝ n p) (g : Vec ℝ n) (r : Vec ℝ p) :
    (∃ step, (s.solveBlock H A T g r).outcome = .ok step) ↔
      (s.checkInertia n p (s.blockMatrix H A T)).outcome = .ok () ∧
      (s.checkPivots (Lu.factor (s.blockMatrix H A T))).outcome = .ok () := by
  simp only [outcome_solveBlock_eq_ok]
  constructor
  · rintro ⟨step, hinertia, hpivots, -⟩
    exact ⟨hinertia, hpivots⟩
  · rintro ⟨hinertia, hpivots⟩
    obtain ⟨x, hx, -⟩ := exists_solve?_of_outcome_checkPivots hvalid hpivots (Block.rightSide g r)
    exact ⟨_, hinertia, hpivots, x, hx, rfl⟩

/-- Without regularization, the block matrix is factored as it is. -/
theorem blockMatrix_of_regularization {s : Solver ℝ} (hreg : s.settings.regularization = 0)
    (H : Mat ℝ n n) (A : Mat ℝ p n) (T : Mat ℝ n p) :
    s.blockMatrix H A T = Block.assemble H A T := by
  unfold blockMatrix
  rw [hreg, Block.regularize_zero]

/-- **A step of a block solve** holds an exact solution of the block system, whose matrix is not
singular. -/
theorem exists_of_outcome_solveBlock {s : Solver ℝ} (hvalid : s.settings.validate = .ok ())
    (hreg : s.settings.regularization = 0) {H : Mat ℝ n n} {A : Mat ℝ p n} {T : Mat ℝ n p}
    {g : Vec ℝ n} {r : Vec ℝ p} {step : Step ℝ n}
    (hstep : (s.solveBlock H A T g r).outcome = .ok step) :
    (Block.assemble H A T).toMatrix.det ≠ 0 ∧
      ∃ x, (Block.assemble H A T).toMatrix *ᵥ x.get = (Block.rightSide g r).get ∧
        step = blockStep H x := by
  obtain ⟨-, hpivots, x, hx, hstep⟩ := outcome_solveBlock_eq_ok.mp hstep
  rw [blockMatrix_of_regularization hreg] at hpivots hx hstep
  have hdet := (isUnit_det_of_outcome_checkPivots hvalid hpivots).ne_zero
  have hsolves := Lu.mulVec_of_solve? hx
  rw [refine_of_mulVec_eq hsolves] at hstep
  exact ⟨hdet, x, hsolves, hstep.symm⟩

/-- **A singular block matrix is refused** if the signs of the eigenvalues are not checked. -/
theorem outcome_solveBlock_of_det_eq_zero {s : Solver ℝ} (hvalid : s.settings.validate = .ok ())
    (hreg : s.settings.regularization = 0) (hinertia : s.settings.checkInertia = false)
    {H : Mat ℝ n n} {A : Mat ℝ p n} {T : Mat ℝ n p} (hdet : (Block.assemble H A T).toMatrix.det = 0)
    (g : Vec ℝ n) (r : Vec ℝ p) :
    ∃ cause, (s.solveBlock H A T g r).outcome = .error (.error (.singularSystem cause)) := by
  obtain ⟨i, hi⟩ := (Lu.det_eq_zero_iff _).mp hdet
  obtain ⟨cause, hrefuse⟩ := outcome_checkPivots_of_pivot_eq_zero hvalid hi
  have hpass : (s.checkInertia n p (Block.assemble H A T)).outcome = .ok () := by
    rw [checkInertia, hinertia]
    rfl
  refine ⟨cause, ?_⟩
  rw [outcome_solveBlock, blockMatrix_of_regularization hreg, hpass, hrefuse]
  rfl

end Solver

/-- **The law of the solve under equations.** Without regularization, a step is an exact solution of
both rows of blocks, and there is one only if the block matrix is not singular. With an accepted
transpose and without the check of the signs of the eigenvalues, the answer for a singular matrix is
that the system is singular. -/
theorem block_solve_law (s : Solver ℝ) (hvalid : s.settings.validate = .ok ())
    (hreg : s.settings.regularization = 0) (hn : 0 < n) (H : Mat ℝ n n) (A : Mat ℝ p n)
    (T : Mat ℝ n p) (g : Vec ℝ n) (r : Vec ℝ p) :
    (∀ step, (s.solve (.ofMat H) (.ofMat A) (.ofMat T) g r).outcome = .ok step →
      (Matrix.fromBlocks H.toMatrix T.toMatrix A.toMatrix 0).det ≠ 0 ∧
      ∃ w : Vec ℝ p, step.w = some w.toArray ∧
        H.toMatrix *ᵥ step.v.get + T.toMatrix *ᵥ w.get = -g.get ∧
        A.toMatrix *ᵥ step.v.get = -r.get ∧
        step.decrementSquared = step.v.get ⬝ᵥ H.toMatrix *ᵥ step.v.get) ∧
    ((Matrix.fromBlocks H.toMatrix T.toMatrix A.toMatrix 0).det = 0 →
      (∀ step, (s.solve (.ofMat H) (.ofMat A) (.ofMat T) g r).outcome ≠ .ok step) ∧
      (s.settings.checkInertia = false →
        Dense.checkTranspose (.ofMat A) (.ofMat T) Dense.symmetryTolerance = .ok () →
        ∃ cause, (s.solve (.ofMat H) (.ofMat A) (.ofMat T) g r).outcome
          = .error (.error (.singularSystem cause)))) := by
  -- what holds of a step of the block solve holds of a step, since the checks before it passed
  have hsound : ∀ step, (s.solve (.ofMat H) (.ofMat A) (.ofMat T) g r).outcome = .ok step →
      (Block.assemble H A T).toMatrix.det ≠ 0 ∧
        ∃ x, (Block.assemble H A T).toMatrix *ᵥ x.get = (Block.rightSide g r).get ∧
          step = Solver.blockStep H x := by
    intro step hstep
    obtain ⟨-, -, -, -, -, -, -, -, htranspose, -⟩ := Solver.outcome_solve_eq_ok.mp hstep
    rw [Solver.outcome_solve hvalid hn.ne' htranspose] at hstep
    exact Solver.exists_of_outcome_solveBlock hvalid hreg hstep
  rw [← Block.det_assemble]
  refine ⟨fun step hstep => ?_, fun hdet => ⟨fun step hstep => ?_, fun hinertia htranspose => ?_⟩⟩
  · obtain ⟨hdet, x, hx, rfl⟩ := hsound step hstep
    obtain ⟨hupper, hlower⟩ := (Block.assemble_mulVec_eq_iff H A T g r x).mp hx
    refine ⟨hdet, Block.tail x, rfl, hupper, hlower, ?_⟩
    show Vec.dot (Block.head x) (Mat.mulVec H (Block.head x)) = _
    rw [Vec.dot_eq, Mat.get_mulVec_eq]
    rfl
  · exact (hsound step hstep).1 hdet
  · rw [Solver.outcome_solve hvalid hn.ne' htranspose]
    exact Solver.outcome_solveBlock_of_det_eq_zero hvalid hreg hinertia hdet g r

namespace Solver

/-- The default settings without the check of the signs of the eigenvalues. -/
noncomputable def unchecked : Solver ℝ where
  settings := { checkInertia := false }

theorem validate_unchecked : unchecked.settings.validate = .ok () := Settings.validate_default

/-- The same, but for a regularization of one. -/
noncomputable def shifted : Solver ℝ where
  settings := { regularization := 1, checkInertia := false }

theorem validate_shifted : shifted.settings.validate = .ok () :=
  (Settings.validate_eq_ok_iff _).mpr
    ⟨zero_le_one, ((Settings.validate_eq_ok_iff _).mp validate_unchecked).2⟩

/-- The block matrix of one variable without curvature under one equation: an exchange. -/
noncomputable def exchange : Mat ℝ (1 + 1) (1 + 1) :=
  Block.assemble #v[#v[0]] #v[#v[1]] (Mat.transpose #v[#v[1]])

theorem entry_exchange (i j : Fin 2) : Mat.entry exchange i j = if i = j then 0 else 1 := by
  fin_cases i <;> fin_cases j <;> rfl

/-- It is factored as it is. -/
theorem blockMatrix_unchecked :
    unchecked.blockMatrix #v[#v[0]] #v[#v[1]] (Mat.transpose #v[#v[1]]) = exchange :=
  blockMatrix_of_regularization rfl _ _ _

/-- Elimination exchanges the two rows, and has nothing to clear. -/
theorem packed_factor_exchange : (Lu.factor exchange).packed = Mat.identity := by
  have hfirst : Lu.pivotRow exchange 0 = 1 := by
    simp [Lu.pivotRow, Fin.foldl_succ, entry_exchange]
  have hfirstClear : Lu.clearColumn (Mat.swapRows exchange 0 1) 0 = Mat.identity := by
    refine Mat.ext_entry fun i j => ?_
    rw [Mat.entry_identity, Lu.entry_clearColumn]
    fin_cases i <;> fin_cases j <;> simp [Mat.entry_swapRows, entry_exchange]
  have hsecond : Lu.pivotRow (Mat.identity : Mat ℝ 2 2) 1 = 1 := by
    simp [Lu.pivotRow, Fin.foldl_succ]
  have hsecondClear : Lu.clearColumn (Mat.swapRows (Mat.identity : Mat ℝ 2 2) 1 1) 1
      = Mat.identity := by
    refine Mat.ext_entry fun i j => ?_
    rw [Mat.entry_identity, Lu.entry_clearColumn]
    fin_cases i <;> fin_cases j <;> simp [Mat.entry_swapRows]
  show (Lu.eliminate (Lu.eliminate ⟨exchange, []⟩ 0) 1).packed = Mat.identity
  rw [Lu.eliminate_of_pivot_ne_zero (F := ⟨exchange, []⟩) (by simp [hfirst, entry_exchange])]
  simp only [hfirst, hfirstClear]
  rw [Lu.eliminate_of_pivot_ne_zero (by simp [hsecond])]
  simp only [hsecond, hsecondClear]

theorem outcome_checkPivots_exchange :
    (unchecked.checkPivots (Lu.factor exchange)).outcome = .ok () := by
  have hpivots : (Lu.factor exchange).pivots.toList = [1, 1] := by
    rw [Lu.pivots, packed_factor_exchange]
    rfl
  have htolerance : unchecked.settings.pivotTolerance < 1 := by
    show ((1 : ℕ) : ℝ) / ((Nat.pow 10 13 : ℕ) : ℝ) < 1
    norm_num
  rw [outcome_checkPivots, hpivots]
  refine if_neg ?_
  simp [Vec.smallestAbs, Vec.largestAbs, htolerance]

end Solver

/-- The law where the rows have to be exchanged. -/
theorem block_solve_law_exchange :
    Solver.unchecked.settings.validate = .ok () ∧ Solver.unchecked.settings.regularization = 0 ∧
    ∃ step : Step ℝ 1, (Solver.unchecked.solve (.ofMat #v[#v[0]]) (.ofMat #v[#v[1]])
        (.ofMat (Mat.transpose #v[#v[1]])) #v[-3] #v[-5]).outcome = .ok step ∧
      step.v.get 0 = 5 ∧ step.decrementSquared = 0 := by
  obtain ⟨step, hstep⟩ := (Solver.exists_outcome_solveBlock_iff Solver.validate_unchecked
    #v[#v[0]] #v[#v[1]] (Mat.transpose #v[#v[1]]) #v[-3] #v[-5]).mpr
    ⟨rfl, Solver.blockMatrix_unchecked ▸ Solver.outcome_checkPivots_exchange⟩
  rw [← Solver.outcome_solve Solver.validate_unchecked one_ne_zero
    (Dense.checkTranspose_symmetryTolerance _)] at hstep
  obtain ⟨-, w, -, -, hequation, hdecrement⟩ := (block_solve_law Solver.unchecked
    Solver.validate_unchecked rfl one_pos #v[#v[0]] #v[#v[1]] (Mat.transpose #v[#v[1]]) #v[-3]
    #v[-5]).1 step hstep
  refine ⟨Solver.validate_unchecked, rfl, step, hstep, ?_, ?_⟩
  · have h := congrFun hequation 0
    rw [Matrix.mulVec, dotProduct, Fin.sum_univ_one] at h
    have h : (1 : ℝ) * step.v.get 0 = -(-5) := h
    linarith
  · rw [hdecrement, dotProduct, Fin.sum_univ_one, Matrix.mulVec, dotProduct, Fin.sum_univ_one]
    show step.v.get 0 * ((0 : ℝ) * step.v.get 0) = 0
    ring

/-! ## Without equations -/

namespace Solver

/-- **A reduced solve has a step exactly for a positive definite matrix**, in which case it comes
from the factors of this matrix; otherwise the Hessian is refused as not positive definite. -/
theorem outcome_solveDense_cases (s : Solver ℝ) (H : Mat ℝ n n) (g : Vec ℝ n) :
    ((Block.shiftDiagonal s.settings.regularization H).mirrored.PosDef ∧
      ∃ F, Cholesky.factor? (Block.shiftDiagonal s.settings.regularization H) = some F ∧
        (s.solveDense H g).outcome = .ok (reducedStep g (refine H (Vec.neg g)
          (fun b => some (F.solve b)) s.settings.refinements (F.solve (Vec.neg g))))) ∨
    (¬ (Block.shiftDiagonal s.settings.regularization H).mirrored.PosDef ∧
      (s.solveDense H g).outcome = .error (.error (.notPositiveDefinite (.pivot n)))) := by
  rw [outcome_solveDense, ← Cholesky.isSome_factor?_iff]
  cases Cholesky.factor? (Block.shiftDiagonal s.settings.regularization H) with
  | none => exact Or.inr ⟨Bool.false_ne_true, rfl⟩
  | some F => exact Or.inl ⟨rfl, F, rfl, rfl⟩

/-- The lower triangle of a regularized symmetric Hessian is all of it. -/
theorem mirrored_shiftDiagonal {H : Mat ℝ n n} (hH : H.toMatrix.IsSymm) (ε : ℝ) :
    (Block.shiftDiagonal ε H).mirrored = H.toMatrix + ε • 1 := by
  rw [Mat.mirrored_of_isSymm, Block.toMatrix_shiftDiagonal]
  rw [Block.toMatrix_shiftDiagonal]
  exact hH.add (Matrix.isSymm_one.smul ε)

/-- There is a reduced step if the regularized Hessian is positive definite. -/
theorem exists_outcome_solveDense {s : Solver ℝ} {H : Mat ℝ n n} (hH : H.toMatrix.IsSymm)
    (hposDef : (H.toMatrix + s.settings.regularization • 1).PosDef) (g : Vec ℝ n) :
    ∃ step, (s.solveDense H g).outcome = .ok step := by
  rw [← mirrored_shiftDiagonal hH] at hposDef
  obtain ⟨-, F, -, hstep⟩ | ⟨hindefinite, -⟩ := s.outcome_solveDense_cases H g
  · exact ⟨_, hstep⟩
  · exact absurd hposDef hindefinite

/-- Without regularization, the direction of a reduced solve is the exact solution. -/
theorem mulVec_refine_solve {H : Mat ℝ n n} {F : Cholesky ℝ n} (hH : H.mirrored = H.toMatrix)
    (hF : Cholesky.factor? H = some F) (b : Vec ℝ n) (steps : ℕ) :
    H.toMatrix *ᵥ (refine H b (fun b => some (F.solve b)) steps (F.solve b)).get = b.get := by
  have hsolves : H.toMatrix *ᵥ (F.solve b).get = b.get := by
    rw [← hH]
    exact Cholesky.mirrored_mulVec_solve hF b
  rw [refine_of_mulVec_eq hsolves, hsolves]

end Solver

/-- **The law of the solve without equations.** For a symmetric Hessian there is a step exactly if
the regularized Hessian is positive definite, and otherwise the Hessian is refused as not positive
definite. Without regularization, the step is the exact solution, and its squared decrement is the
value of the Hessian in its direction. -/
theorem reduced_solve_law (s : Solver ℝ) (hvalid : s.settings.validate = .ok ()) (hn : 0 < n)
    (H : Mat ℝ n n) (hH : H.toMatrix.IsSymm) (g : Vec ℝ n) :
    ((∃ step, (s.solveReduced (.ofMat H) g).outcome = .ok step) ↔
      (H.toMatrix + s.settings.regularization • 1).PosDef) ∧
    (¬ (H.toMatrix + s.settings.regularization • 1).PosDef →
      ∃ cause, (s.solveReduced (.ofMat H) g).outcome
        = .error (.error (.notPositiveDefinite cause))) ∧
    (s.settings.regularization = 0 →
      ∀ step, (s.solveReduced (.ofMat H) g).outcome = .ok step →
        H.toMatrix *ᵥ step.v.get = -g.get ∧ step.w = none ∧
        step.decrementSquared = -(g.get ⬝ᵥ step.v.get) ∧
        step.decrementSquared = step.v.get ⬝ᵥ H.toMatrix *ᵥ step.v.get) := by
  rw [Solver.outcome_solveReduced hvalid hn.ne', ← Solver.mirrored_shiftDiagonal hH]
  rcases s.outcome_solveDense_cases H g with ⟨hposDef, F, hF, hstep⟩ | ⟨hposDef, hrefuse⟩
  · refine ⟨iff_of_true ⟨_, hstep⟩ hposDef, fun h => absurd hposDef h, fun hreg step hok => ?_⟩
    have hshift : Block.shiftDiagonal 0 H = H := by
      refine Mat.ext_entry fun i j => ?_
      rw [Block.shiftDiagonal, Mat.entry_of, add_zero, ite_self]
    rw [hreg, hshift] at hF
    rw [← Except.ok.inj (hstep.symm.trans hok)]
    have hsolves := Solver.mulVec_refine_solve (Mat.mirrored_of_isSymm hH) hF (Vec.neg g)
      s.settings.refinements
    set v := refine H (Vec.neg g) (fun b => some (F.solve b)) s.settings.refinements
      (F.solve (Vec.neg g))
    have hdecrement : -Vec.dot g v = -(g.get ⬝ᵥ v.get) := by rw [Vec.dot_eq]
    refine ⟨hsolves.trans (Vec.get_neg_eq g), rfl, hdecrement, ?_⟩
    show -Vec.dot g v = v.get ⬝ᵥ H.toMatrix *ᵥ v.get
    rw [hdecrement, hsolves, Vec.get_neg_eq, dotProduct_neg, dotProduct_comm]
  · have hnever : ∀ step, (s.solveDense H g).outcome ≠ .ok step := by
      intro step hok
      rw [hrefuse] at hok
      cases hok
    refine ⟨iff_of_false ?_ hposDef, fun _ => ⟨_, hrefuse⟩, ?_⟩
    · rintro ⟨step, hok⟩
      exact hnever step hok
    · intro _ step hok
      exact absurd hok (hnever step)

/-- The law for a Hessian whose variables are coupled. -/
theorem reduced_solve_law_coupled :
    Solver.unchecked.settings.validate = .ok () ∧
    (Mat.toMatrix (#v[#v[2, 1], #v[1, 1]] : Mat ℝ 2 2)).IsSymm ∧
    ∃ step : Step ℝ 2, (Solver.unchecked.solveReduced (.ofMat #v[#v[2, 1], #v[1, 1]])
        #v[-3, -2]).outcome = .ok step ∧
      step.v.get 0 = 1 ∧ step.v.get 1 = 1 ∧ step.decrementSquared = 5 := by
  have hsymm : (Mat.toMatrix (#v[#v[2, 1], #v[1, 1]] : Mat ℝ 2 2)).IsSymm := by
    refine Matrix.IsSymm.ext fun i j => ?_
    fin_cases i <;> fin_cases j <;> rfl
  obtain ⟨hiff, -, hexact⟩ := reduced_solve_law Solver.unchecked Solver.validate_unchecked two_pos
    #v[#v[2, 1], #v[1, 1]] hsymm #v[-3, -2]
  have hposDef : (Mat.toMatrix (#v[#v[2, 1], #v[1, 1]] : Mat ℝ 2 2)
      + Solver.unchecked.settings.regularization • 1).PosDef := by
    have hzero : Solver.unchecked.settings.regularization = 0 := rfl
    rw [hzero, zero_smul, add_zero]
    have hhermitian := (Matrix.conjTranspose_eq_transpose_of_trivial _).trans hsymm
    refine Matrix.PosDef.of_dotProduct_mulVec_pos hhermitian fun {x} hx => ?_
    have hform : star x ⬝ᵥ (Mat.toMatrix (#v[#v[2, 1], #v[1, 1]] : Mat ℝ 2 2) *ᵥ x)
        = x 0 ^ 2 + (x 0 + x 1) ^ 2 := by
      rw [dotProduct, Fin.sum_univ_two, Matrix.mulVec, Matrix.mulVec, dotProduct, dotProduct,
        Fin.sum_univ_two, Fin.sum_univ_two]
      show x 0 * (2 * x 0 + 1 * x 1) + x 1 * (1 * x 0 + 1 * x 1) = _
      ring
    rw [hform]
    refine lt_of_le_of_ne (by positivity) fun h => hx ?_
    have h0 : x 0 = 0 := by nlinarith [sq_nonneg (x 0), sq_nonneg (x 0 + x 1)]
    have h1 : x 1 = 0 := by nlinarith [sq_nonneg (x 0), sq_nonneg (x 0 + x 1)]
    funext i
    fin_cases i
    · exact h0
    · exact h1
  obtain ⟨step, hstep⟩ := hiff.mpr hposDef
  obtain ⟨hequation, -, hdecrement, -⟩ := hexact rfl step hstep
  have hfirst := congrFun hequation 0
  have hsecond := congrFun hequation 1
  rw [Matrix.mulVec, dotProduct, Fin.sum_univ_two] at hfirst hsecond
  have hfirst : (2 : ℝ) * step.v.get 0 + 1 * step.v.get 1 = -(-3) := hfirst
  have hsecond : (1 : ℝ) * step.v.get 0 + 1 * step.v.get 1 = -(-2) := hsecond
  rw [dotProduct, Fin.sum_univ_two] at hdecrement
  have hdecrement : step.decrementSquared = -(-3 * step.v.get 0 + -2 * step.v.get 1) := hdecrement
  refine ⟨Solver.validate_unchecked, hsymm, step, hstep, ?_, ?_, ?_⟩
  · linarith
  · linarith
  · linarith

end InteriorPoint

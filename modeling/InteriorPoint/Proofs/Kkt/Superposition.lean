import InteriorPoint.Proofs.Kkt.NewtonStep
import InteriorPoint.Proofs.Kkt.RefinedInverse

/-!
# Superposition of right-hand sides

Every test that a solve makes before it has a solution is one of its matrices and settings: the
admission, the check of the transposed matrix, the signs of the eigenvalues, the pivots. So the
answer is a step for every gradient and residual, if the problem passes these tests
(`Solver.AdmitsBlock`, `Solver.AdmitsReduced`), and otherwise a refusal for every gradient and
residual, and always the same one.

In the first case the solution is `refinedInverse` times the right-hand side, and the right-hand
side is the pair of the gradient and the residual, read as one vector (`Block.pairs`) with its sign
turned. So direction and multipliers are a linear function of the gradient and the residual
(`superposition_law`), although refinement may end at different steps for different right-hand
sides.
-/

open Matrix

namespace InteriorPoint

variable {n p : ℕ}

namespace Block

/-! ## Pairs as vectors -/

/-- **A pair of vectors as one vector**, the first one in front. -/
def pairs (n p : ℕ) : ((Fin n → ℝ) × (Fin p → ℝ)) ≃ₗ[ℝ] (Fin (n + p) → ℝ) :=
  { Fin.appendEquiv n p with
    map_add' := fun x y => by
      funext i
      refine Fin.addCases (fun i => ?_) (fun i => ?_) i
      · simp
      · simp
    map_smul' := fun c x => by
      funext i
      refine Fin.addCases (fun i => ?_) (fun i => ?_) i
      · simp
      · simp }

/-- The two parts of a vector. -/
theorem pairs_symm_apply (x : Vec ℝ (n + p)) :
    (pairs n p).symm x.get = ((head x).get, (tail x).get) :=
  Prod.ext (funext fun i => (get_head x i).symm) (funext fun i => (get_tail x i).symm)

/-- The right-hand side is the pair with its sign turned. -/
theorem get_rightSide_eq_neg_pairs (g : Vec ℝ n) (r : Vec ℝ p) :
    (rightSide g r).get = pairs n p (-(g.get, r.get)) := get_rightSide g r

end Block

namespace Solver

/-- **A stage that does not see the input** refuses every input for one cause, or leaves it to what
comes after it. -/
theorem exists_bind_eq_error {ε β γ ι : Type} {x : Except ε β} {f : ι → β → Except ε γ}
    (h : ∀ b, x = .ok b → ∃ e, ∀ i, f i b = .error e) : ∃ e, ∀ i, x.bind (f i) = .error e := by
  cases x with
  | error e => exact ⟨e, fun _ => rfl⟩
  | ok b => exact h b rfl

/-! ## With equations -/

section Block

variable (s : Solver ℝ) (H : Mat ℝ n n) (A : Mat ℝ p n) (T : Mat ℝ n p)

/-- **What a block solve makes of a gradient and a residual**: direction and multipliers. -/
noncomputable def blockResponse : (Fin n → ℝ) × (Fin p → ℝ) →ₗ[ℝ] (Fin n → ℝ) × (Fin p → ℝ) :=
  (Block.pairs n p).symm.conj
    (-refinedInverse (s.blockMatrix H A T).toMatrix (Block.assemble H A T).toMatrix
      (s.settings.refinements + 1)).mulVecLin

theorem blockResponse_apply (z : (Fin n → ℝ) × (Fin p → ℝ)) :
    s.blockResponse H A T z = (Block.pairs n p).symm
      (refinedInverse (s.blockMatrix H A T).toMatrix (Block.assemble H A T).toMatrix
        (s.settings.refinements + 1) *ᵥ Block.pairs n p (-z)) := by
  unfold blockResponse
  rw [LinearEquiv.conj_apply_apply, LinearEquiv.symm_symm, mulVecLin_apply, neg_mulVec,
    ← mulVec_neg, map_neg]

/-- **The tests of a solve under equations**, none of which looks at the right-hand side. -/
structure AdmitsBlock : Prop where
  /-- The settings are valid. -/
  settings : s.settings.validate = .ok ()
  /-- There is a variable. -/
  dim_pos : 0 < n
  /-- The transposed matrix is accepted. -/
  transposed : Dense.checkTranspose (.ofMat A) (.ofMat T) Dense.symmetryTolerance = .ok ()
  /-- The eigenvalues of the factored matrix have the right signs, if they are asked for. -/
  inertia : (s.checkInertia n p (s.blockMatrix H A T)).outcome = .ok ()
  /-- The pivots are not too small. -/
  pivots : (s.checkPivots (Lu.factor (s.blockMatrix H A T))).outcome = .ok ()

/-- A step of a block solve whose refinement does not end early. -/
def IsBlockStepThroughout (g : Vec ℝ n) (r : Vec ℝ p) (step : Step ℝ n) : Prop :=
  ∃ x, (Lu.factor (s.blockMatrix H A T)).solve? (Block.rightSide g r) = some x ∧
    step = blockStep H (refineThroughout (Block.assemble H A T) (Block.rightSide g r)
      (Lu.factor (s.blockMatrix H A T)).solve? s.settings.refinements x)

variable {s H A T}

/-- **Behind the two checks** every right-hand side has a step, and the steps are linear in it. -/
theorem exists_outcome_solveBlock_throughout (hvalid : s.settings.validate = .ok ())
    (hinertia : (s.checkInertia n p (s.blockMatrix H A T)).outcome = .ok ())
    (hpivots : (s.checkPivots (Lu.factor (s.blockMatrix H A T))).outcome = .ok ()) (g : Vec ℝ n)
    (r : Vec ℝ p) :
    ∃ x, (s.solveBlock H A T g r).outcome = .ok (blockStep H x) ∧
      ((Block.head x).get, (Block.tail x).get) = s.blockResponse H A T (g.get, r.get) ∧
      s.IsBlockStepThroughout H A T g r (blockStep H x) := by
  have hdet := isUnit_det_of_outcome_checkPivots hvalid hpivots
  have hsolve := exists_solve?_of_outcome_checkPivots hvalid hpivots
  obtain ⟨x, hx, -⟩ := hsolve (Block.rightSide g r)
  refine ⟨_, outcome_solveBlock_eq_ok.mpr ⟨hinertia, hpivots, x, hx, rfl⟩, ?_, x, hx, ?_⟩
  · rw [← Block.pairs_symm_apply, get_refine_of_solve hdet hsolve hx,
      Block.get_rightSide_eq_neg_pairs, blockResponse_apply]
  · rw [refine_eq_refineThroughout hdet hsolve]

/-- **Behind the tests** every right-hand side has a step, and the steps are linear in it. -/
theorem AdmitsBlock.exists_outcome_solve (h : s.AdmitsBlock H A T) (g : Vec ℝ n) (r : Vec ℝ p) :
    ∃ x, (s.solve (.ofMat H) (.ofMat A) (.ofMat T) g r).outcome = .ok (blockStep H x) ∧
      ((Block.head x).get, (Block.tail x).get) = s.blockResponse H A T (g.get, r.get) ∧
      s.IsBlockStepThroughout H A T g r (blockStep H x) := by
  rw [outcome_solve h.settings h.dim_pos.ne' h.transposed]
  exact exists_outcome_solveBlock_throughout h.settings h.inertia h.pivots g r

/-- **A problem that fails a test** is refused whatever the right-hand side, for one cause. -/
theorem exists_outcome_solve_eq_error (s : Solver ℝ) (H : Mat ℝ n n) (A : Mat ℝ p n)
    (T : Mat ℝ n p) (h : ¬ s.AdmitsBlock H A T) :
    ∃ e, ∀ (g : Vec ℝ n) (r : Vec ℝ p),
      (s.solve (.ofMat H) (.ofMat A) (.ofMat T) g r).outcome = .error e := by
  suffices hrefuse : ∃ e, ∀ z : Vec ℝ n × Vec ℝ p,
      (s.solve (.ofMat H) (.ofMat A) (.ofMat T) z.1 z.2).outcome = .error e from
    hrefuse.imp fun _ h g r => h (g, r)
  simp only [outcome_solve_ofMat, outcome_solveBlock]
  refine exists_bind_eq_error fun _ hadmission => ?_
  refine exists_bind_eq_error fun _ htransposed => ?_
  refine exists_bind_eq_error fun _ hinertia => ?_
  refine exists_bind_eq_error fun _ hpivots => ?_
  obtain ⟨hvalid, hn⟩ := admission_eq_ok_iff.mp hadmission
  exact absurd ⟨hvalid, Nat.pos_of_ne_zero hn, htransposed, hinertia, hpivots⟩ h

/-- What has a step has passed the tests. -/
theorem admitsBlock_of_outcome_solve {g : Vec ℝ n} {r : Vec ℝ p} {step : Step ℝ n}
    (hstep : (s.solve (.ofMat H) (.ofMat A) (.ofMat T) g r).outcome = .ok step) :
    s.AdmitsBlock H A T := by
  by_contra h
  obtain ⟨e, hrefuse⟩ := s.exists_outcome_solve_eq_error H A T h
  exact nomatch (hrefuse g r).symm.trans hstep

end Block

/-! ## Without equations -/

section Reduced

variable (s : Solver ℝ) (H : Mat ℝ n n)

/-- **What a reduced solve makes of a gradient**: the direction. -/
noncomputable def reducedResponse : (Fin n → ℝ) →ₗ[ℝ] (Fin n → ℝ) :=
  (-refinedInverse (Block.shiftDiagonal s.settings.regularization H).mirrored H.toMatrix
    (s.settings.refinements + 1)).mulVecLin

theorem reducedResponse_apply (g : Fin n → ℝ) :
    s.reducedResponse H g
      = refinedInverse (Block.shiftDiagonal s.settings.regularization H).mirrored H.toMatrix
          (s.settings.refinements + 1) *ᵥ (-g) := by
  unfold reducedResponse
  rw [mulVecLin_apply, neg_mulVec, mulVec_neg]

/-- **The tests of a solve without equations**, none of which looks at the gradient. -/
structure AdmitsReduced : Prop where
  /-- The settings are valid. -/
  settings : s.settings.validate = .ok ()
  /-- There is a variable. -/
  dim_pos : 0 < n
  /-- The factored matrix is positive definite. -/
  posDef : (Block.shiftDiagonal s.settings.regularization H).mirrored.PosDef

/-- A step of a reduced solve whose refinement does not end early. -/
def IsReducedStepThroughout (g : Vec ℝ n) (step : Step ℝ n) : Prop :=
  ∃ F, Cholesky.factor? (Block.shiftDiagonal s.settings.regularization H) = some F ∧
    step = reducedStep g (refineThroughout H (Vec.neg g) (fun b => some (F.solve b))
      s.settings.refinements (F.solve (Vec.neg g)))

variable {s H}

/-- **For a positive definite matrix** every gradient has a step, and the steps are linear in it. -/
theorem exists_outcome_solveDense_throughout
    (hposDef : (Block.shiftDiagonal s.settings.regularization H).mirrored.PosDef) (g : Vec ℝ n) :
    ∃ v, (s.solveDense H g).outcome = .ok (reducedStep g v) ∧
      v.get = s.reducedResponse H g.get ∧ s.IsReducedStepThroughout H g (reducedStep g v) := by
  obtain ⟨-, F, hF, hok⟩ | ⟨hindefinite, -⟩ := s.outcome_solveDense_cases H g
  · have hdet := (Matrix.isUnit_iff_isUnit_det _).mp hposDef.isUnit
    have hsolve : ∀ r, ∃ d, some (F.solve r) = some d ∧
        (Block.shiftDiagonal s.settings.regularization H).mirrored *ᵥ d.get = r.get := fun r =>
      ⟨_, rfl, Cholesky.mirrored_mulVec_solve hF r⟩
    refine ⟨_, hok, ?_, F, hF, ?_⟩
    · rw [get_refine_of_solve hdet hsolve rfl, Vec.get_neg_eq, reducedResponse_apply]
    · rw [refine_eq_refineThroughout hdet hsolve]
  · exact absurd hposDef hindefinite

/-- Any other matrix is refused. -/
theorem outcome_solveDense_of_not_posDef
    (hindefinite : ¬ (Block.shiftDiagonal s.settings.regularization H).mirrored.PosDef)
    (g : Vec ℝ n) :
    (s.solveDense H g).outcome = .error (.error (.notPositiveDefinite (.pivot n))) := by
  obtain ⟨hposDef, -⟩ | ⟨-, hrefuse⟩ := s.outcome_solveDense_cases H g
  · exact absurd hposDef hindefinite
  · exact hrefuse

/-- **Behind the tests** every gradient has a step, and the steps are linear in it. -/
theorem AdmitsReduced.exists_outcome_solveReduced (h : s.AdmitsReduced H) (g : Vec ℝ n) :
    ∃ v, (s.solveReduced (.ofMat H) g).outcome = .ok (reducedStep g v) ∧
      v.get = s.reducedResponse H g.get ∧ s.IsReducedStepThroughout H g (reducedStep g v) := by
  rw [outcome_solveReduced h.settings h.dim_pos.ne']
  exact exists_outcome_solveDense_throughout h.posDef g

/-- **A Hessian that fails a test** is refused whatever the gradient, for one cause. -/
theorem exists_outcome_solveReduced_eq_error (s : Solver ℝ) (H : Mat ℝ n n)
    (h : ¬ s.AdmitsReduced H) :
    ∃ e, ∀ g : Vec ℝ n, (s.solveReduced (.ofMat H) g).outcome = .error e := by
  simp only [outcome_solveReduced_ofMat]
  refine exists_bind_eq_error fun _ hadmission => ?_
  obtain ⟨hvalid, hn⟩ := admission_eq_ok_iff.mp hadmission
  exact ⟨_, outcome_solveDense_of_not_posDef fun hposDef =>
    h ⟨hvalid, Nat.pos_of_ne_zero hn, hposDef⟩⟩

/-- What has a step has passed the tests. -/
theorem admitsReduced_of_outcome_solveReduced {g : Vec ℝ n} {step : Step ℝ n}
    (hstep : (s.solveReduced (.ofMat H) g).outcome = .ok step) : s.AdmitsReduced H := by
  by_contra h
  obtain ⟨e, hrefuse⟩ := s.exists_outcome_solveReduced_eq_error H h
  exact nomatch (hrefuse g).symm.trans hstep

end Reduced

end Solver

/-- **The law of superposition**, for any matrices of fitting shapes and any settings.

If the problem passes the tests of a solve under equations, there is a step for every gradient and
residual, and direction and multipliers are a linear function of the two. The step is the one to
which refinement comes that makes all its steps, although refinement ends as soon as the residual is
zero. If the problem does not pass them, every gradient and residual is refused, and always for the
same cause. The same is true of a solve without equations and its tests. -/
theorem superposition_law (s : Solver ℝ) (H : Mat ℝ n n) (A : Mat ℝ p n) (T : Mat ℝ n p) :
    ((s.AdmitsBlock H A T ∧
        ∃ L : (Fin n → ℝ) × (Fin p → ℝ) →ₗ[ℝ] (Fin n → ℝ) × (Fin p → ℝ),
          ∀ (g : Vec ℝ n) (r : Vec ℝ p), ∃ (step : Step ℝ n) (w : Vec ℝ p),
            (s.solve (.ofMat H) (.ofMat A) (.ofMat T) g r).outcome = .ok step ∧
            step.w = some w.toArray ∧ (step.v.get, w.get) = L (g.get, r.get) ∧
            s.IsBlockStepThroughout H A T g r step) ∨
      (¬ s.AdmitsBlock H A T ∧ ∃ e, ∀ (g : Vec ℝ n) (r : Vec ℝ p),
        (s.solve (.ofMat H) (.ofMat A) (.ofMat T) g r).outcome = .error e)) ∧
    ((s.AdmitsReduced H ∧
        ∃ L : (Fin n → ℝ) →ₗ[ℝ] (Fin n → ℝ), ∀ g : Vec ℝ n, ∃ step : Step ℝ n,
          (s.solveReduced (.ofMat H) g).outcome = .ok step ∧ step.w = none ∧
          step.v.get = L g.get ∧ s.IsReducedStepThroughout H g step) ∨
      (¬ s.AdmitsReduced H ∧ ∃ e, ∀ g : Vec ℝ n,
        (s.solveReduced (.ofMat H) g).outcome = .error e)) := by
  constructor
  · by_cases h : s.AdmitsBlock H A T
    · refine Or.inl ⟨h, s.blockResponse H A T, fun g r => ?_⟩
      obtain ⟨x, hok, hlinear, hthroughout⟩ := h.exists_outcome_solve g r
      exact ⟨_, Block.tail x, hok, rfl, hlinear, hthroughout⟩
    · exact Or.inr ⟨h, s.exists_outcome_solve_eq_error H A T h⟩
  · by_cases h : s.AdmitsReduced H
    · refine Or.inl ⟨h, s.reducedResponse H, fun g => ?_⟩
      obtain ⟨v, hok, hlinear, hthroughout⟩ := h.exists_outcome_solveReduced g
      exact ⟨_, hok, rfl, hlinear, hthroughout⟩
    · exact Or.inr ⟨h, s.exists_outcome_solveReduced_eq_error H h⟩

/-- The law for the exchange: with the equation there is a step for every right-hand side, and
without it there is none for any gradient. -/
theorem superposition_law_exchange :
    Solver.unchecked.AdmitsBlock #v[#v[0]] #v[#v[1]] (Mat.transpose #v[#v[1]]) ∧
    (∃ L : (Fin 1 → ℝ) × (Fin 1 → ℝ) →ₗ[ℝ] (Fin 1 → ℝ) × (Fin 1 → ℝ),
      ∀ g r : Vec ℝ 1, ∃ (step : Step ℝ 1) (w : Vec ℝ 1),
        (Solver.unchecked.solve (.ofMat #v[#v[0]]) (.ofMat #v[#v[1]])
          (.ofMat (Mat.transpose #v[#v[1]])) g r).outcome = .ok step ∧
        (step.v.get, w.get) = L (g.get, r.get)) ∧
    ∃ e, ∀ g : Vec ℝ 1, (Solver.unchecked.solveReduced (.ofMat #v[#v[0]]) g).outcome
      = .error e := by
  have hadmits : Solver.unchecked.AdmitsBlock #v[#v[0]] #v[#v[1]] (Mat.transpose #v[#v[1]]) :=
    ⟨Solver.validate_unchecked, one_pos, Dense.checkTranspose_symmetryTolerance _, rfl,
      Solver.blockMatrix_unchecked ▸ Solver.outcome_checkPivots_exchange⟩
  have hindefinite : ¬ Solver.unchecked.AdmitsReduced (#v[#v[0]] : Mat ℝ 1 1) := by
    intro h
    have hpos : (0 : ℝ) < 0 + 0 := h.posDef.diag_pos (i := (0 : Fin 1))
    simp at hpos
  obtain ⟨hblock, hreduced⟩ := superposition_law Solver.unchecked #v[#v[0]] #v[#v[1]]
    (Mat.transpose #v[#v[1]])
  obtain ⟨-, L, hsteps⟩ := hblock.resolve_right fun h => h.1 hadmits
  refine ⟨hadmits, ⟨L, fun g r => ?_⟩, (hreduced.resolve_left fun h => hindefinite h.1).2⟩
  obtain ⟨step, w, hok, -, hlinear, -⟩ := hsteps g r
  exact ⟨step, w, hok, hlinear⟩

end InteriorPoint

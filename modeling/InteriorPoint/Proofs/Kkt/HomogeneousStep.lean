import InteriorPoint.Proofs.Kkt.ExactSteps

/-!
# Newton steps along a subspace

Equations with the residual zero ask of a step that it leaves `A·x` as it is: the step is a tangent
of the set of points with the same `A·x` (`Equations.homogeneous`). What the multipliers add to the
first row of blocks vanishes against every tangent, so the step is the one at which the quadratic
model is stationary along the tangents (`Newton.IsNewtonStep`). Without equations every direction
is a tangent, and the two kinds of steps are one.

Whether there is a step depends on the Hessian and the equations only. Where there is one for some
gradient there is one for any other (`Newton.exists_outcome_stepAt_of_outcome_stepAt`).
-/

open scoped Matrix

namespace InteriorPoint

open Exact

variable {α : Type} [Scalar α] [Exact α] {n p : ℕ}

/-- Equations with a real matrix and the residual zero. -/
def Equations.homogeneous (A : Matrix (Fin p) (Fin n) ℝ) : Equations α where
  matrix := .ofMat (mat A)
  residual := (vec 0 : Vec α p).toArray

namespace Newton

variable {s : Solver α} {g : Fin n → ℝ} {H : Matrix (Fin n) (Fin n) ℝ} {step : Step α n}

/-- A step under homogeneous equations is a solve with the matrix and its transpose. -/
theorem stepAt_homogeneous (s : Solver α) (A : Matrix (Fin p) (Fin n) ℝ) (g : Vec α n)
    (H : Mat α n n) :
    stepAt s (some (Equations.homogeneous A)) g H
      = s.solve (.ofMat H) (.ofMat (mat A)) (.ofMat (Mat.transpose (mat A))) g
          (vec 0 : Vec α p) := by
  have hany : ∀ r : Vec α p, stepAt s (some ⟨.ofMat (mat A), r.toArray⟩) g H
      = s.solve (.ofMat H) (.ofMat (mat A)) (.ofMat (Mat.transpose (mat A))) g r := by
    rintro ⟨r, rfl⟩
    rfl
  exact hany (vec 0)

/-- **A step under homogeneous equations** solves both rows of blocks exactly, if there is no
regularization. -/
theorem exists_of_outcome_stepAt_homogeneous (hreg : s.settings.regularization = 0)
    {A : Matrix (Fin p) (Fin n) ℝ}
    (hstep : (stepAt s (some (Equations.homogeneous A)) (vec g) (mat H)).outcome = .ok step) :
    ∃ (v : Fin n → ℝ) (w : Fin p → ℝ), H *ᵥ v + Aᵀ *ᵥ w = -g ∧ A *ᵥ v = 0 ∧ step.v = vec v ∧
      step.decrementSquared = real (v ⬝ᵥ H *ᵥ v) := by
  rw [stepAt_homogeneous] at hstep
  obtain ⟨-, -, H', A', T', hH', hA', hT', -, hblock⟩ := Solver.outcome_solve_eq_ok.mp hstep
  obtain rfl := Dense.ofMat_inj hH'
  obtain rfl := Dense.ofMat_inj hA'
  obtain rfl := Dense.ofMat_inj hT'
  rw [← liftMat_mat H, ← liftMat_mat A, ← liftVec_vec g, ← liftVec_vec 0, transpose_liftMat]
    at hblock
  obtain ⟨x, hx, rfl⟩ :=
    Solver.exists_of_outcome_solveBlock_lift (hreg.trans real_zero.symm) hblock
  rw [Block.regularize_zero] at hx ⊢
  have hsolves := Lu.mulVec_of_solve? hx
  rw [refine_of_mulVec_eq hsolves]
  obtain ⟨hupper, hlower⟩ := (Block.assemble_mulVec_eq_iff _ _ _ _ _ x).mp hsolves
  rw [Mat.toMatrix_transpose, toMatrix_mat_real, toMatrix_mat_real, get_vec_real] at hupper
  rw [toMatrix_mat_real, get_vec_real, neg_zero] at hlower
  refine ⟨(Block.head x).get, (Block.tail x).get, hupper, hlower, Block.head_liftVec x, ?_⟩
  show Vec.dot (Block.head (liftVec x)) (Mat.mulVec (liftMat (mat H)) (Block.head (liftVec x))) = _
  rw [Block.head_liftVec, mulVec_liftMat, dot_liftVec, Vec.dot_eq, Mat.get_mulVec_eq,
    toMatrix_mat_real]

/-! ## Tangents -/

variable {E : Option (Matrix (Fin p) (Fin n) ℝ)} {v : Fin n → ℝ}

/-- **A Newton step along the points with the same `A·x`**, or along all points: a tangent at which
the model with the gradient `g` and the Hessian `H` is stationary along every tangent. -/
structure IsNewtonStep (E : Option (Matrix (Fin p) (Fin n) ℝ)) (H : Matrix (Fin n) (Fin n) ℝ)
    (g v : Fin n → ℝ) : Prop where
  /-- The step is a tangent. -/
  tangent : ∀ A ∈ E, A *ᵥ v = 0
  /-- The gradient of the model after the step vanishes along every tangent. -/
  stationary : ∀ u, (∀ A ∈ E, A *ᵥ u = 0) → u ⬝ᵥ (H *ᵥ v + g) = 0

/-- **What is solved for is a Newton step**, if there is no regularization, and its squared
decrement is the curvature along it. -/
theorem exists_isNewtonStep_of_outcome_stepAt (hreg : s.settings.regularization = 0)
    (hH : H.IsSymm)
    (hstep : (stepAt s (E.map Equations.homogeneous) (vec g) (mat H)).outcome = .ok step) :
    ∃ v, IsNewtonStep E H g v ∧ step.v = vec v ∧
      step.decrementSquared = real (v ⬝ᵥ H *ᵥ v) := by
  cases E with
  | none =>
    obtain ⟨hvalid, hn, -⟩ := Solver.outcome_solveReduced_eq_ok.mp hstep
    obtain ⟨-, v, hv, rfl⟩ := (outcome_stepAt_none_eq_ok hvalid hreg hn hH).mp hstep
    refine ⟨v, ⟨fun A hA => absurd hA (Option.not_mem_none A), fun u _ => ?_⟩, rfl, ?_⟩
    · rw [hv, neg_add_cancel, dotProduct_zero]
    · show -Vec.dot (vec g) (vec v) = _
      rw [dot_vec, neg_real, hv, dotProduct_neg, dotProduct_comm]
  | some A =>
    obtain ⟨v, w, hupper, hlower, hv, hdecrement⟩ :=
      exists_of_outcome_stepAt_homogeneous hreg hstep
    refine ⟨v, ⟨fun B hB => Option.some.inj hB ▸ hlower, fun u hu => ?_⟩, hv, hdecrement⟩
    have hgradient : H *ᵥ v + g = -(Aᵀ *ᵥ w) := by
      rw [eq_neg_iff_add_eq_zero, add_right_comm, hupper, neg_add_cancel]
    have htangent : A *ᵥ u = 0 := hu A rfl
    rw [hgradient, dotProduct_neg, Matrix.mulVec_transpose, dotProduct_comm,
      ← Matrix.dotProduct_mulVec, htangent, dotProduct_zero, neg_zero]

/-! ## Solvability -/

/-- **Whether there is a step does not depend on the gradient**, without regularization. -/
theorem exists_outcome_stepAt_of_outcome_stepAt {s : Solver ℝ}
    (hreg : s.settings.regularization = 0) (hH : H.IsSymm) {step : Step ℝ n}
    (hstep : (stepAt s (E.map Equations.homogeneous) (vec g) (mat H)).outcome = .ok step)
    (g' : Fin n → ℝ) :
    ∃ step', (stepAt s (E.map Equations.homogeneous) (vec g') (mat H)).outcome = .ok step' := by
  cases E with
  | none =>
    obtain ⟨-, hn, -⟩ := Solver.outcome_solveReduced_eq_ok.mp hstep
    have hsolvable := (exists_outcome_stepAt_none_iff hreg hn hH).mp ⟨step, hstep⟩
    exact (exists_outcome_stepAt_none_iff hreg hn hH).mpr hsolvable
  | some A =>
    show ∃ step', (stepAt s (some (Equations.homogeneous A)) _ _).outcome = _
    have hstep : (stepAt s (some (Equations.homogeneous A)) _ _).outcome = _ := hstep
    rw [stepAt_homogeneous] at hstep ⊢
    obtain ⟨hvalid, hn, H', A', T', hH', hA', hT', htranspose, hblock⟩ :=
      Solver.outcome_solve_eq_ok.mp hstep
    obtain ⟨step', hstep'⟩ := (Solver.exists_outcome_solveBlock_iff hvalid H' A' T' (vec g')
      (vec 0)).mpr ((Solver.exists_outcome_solveBlock_iff hvalid H' A' T' _ _).mp ⟨step, hblock⟩)
    exact ⟨step', Solver.outcome_solve_eq_ok.mpr
      ⟨hvalid, hn, H', A', T', hH', hA', hT', htranspose, hstep'⟩⟩

end Newton

end InteriorPoint

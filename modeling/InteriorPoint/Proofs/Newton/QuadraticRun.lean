import InteriorPoint.Proofs.Kkt.HomogeneousStep
import InteriorPoint.Proofs.Newton.BarrierStep
import InteriorPoint.Proofs.Newton.Run
import InteriorPoint.Proofs.Newton.Search

/-!
# Runs on strictly convex quadratic functions

A quadratic function is its own quadratic model, so the Newton step `v` from `x` leads to the
stationary point of the function among the points with the same `A·x`, which is the minimizer. The
full step is taken at the first trial, since the decrease is half the squared decrement `λ²` and the
line search asks for a quarter of it. From there the gradient vanishes against every tangent, so the
next step has no curvature: the run ends with `λ² = 0`, after one round, or none if it started at
the minimizer (`quadratic_run_law`).

A barrier without constraints is its objective times its weight. With a positive weight that is the
same kind of function (`Newton.IsParabola`), and all that is used of it.
-/

open scoped Matrix

namespace InteriorPoint

open Exact

variable {n p : ℕ}

/-! ## Functions with a constant Hessian -/

/-- **A function that is its own quadratic model**: it has the value `F`, the gradient `G` and the
constant Hessian `H`, and is the model with these at every point. -/
structure Smooth.IsParabola (f : Smooth ℝ n) (F : (Fin n → ℝ) → ℝ)
    (G : (Fin n → ℝ) → Fin n → ℝ) (H : Matrix (Fin n) (Fin n) ℝ) : Prop where
  /-- The value. -/
  value : ∀ x, f.HasValue x (F x)
  /-- The gradient. -/
  gradient : ∀ x, f.HasGradient x (G x)
  /-- The Hessian. -/
  hessian : ∀ x, f.HasHessian x H
  /-- The Hessian is positive definite. -/
  posDef : H.PosDef
  /-- The gradient is affine. -/
  gradient_add : ∀ x u, G (x + u) = H *ᵥ u + G x
  /-- The value is the one of the model. -/
  value_add : ∀ x u, F (x + u) = F x + G x ⬝ᵥ u + 1 / 2 * (u ⬝ᵥ H *ᵥ u)

namespace Barrier

variable {φ : Barrier ℝ n} {x : Fin n → ℝ}

/-- **A barrier without constraints** is its objective times its weight. -/
theorem formulas_of_constraints_eq_nil (hconstraints : φ.constraints = []) {v : ℝ}
    {g : Fin n → ℝ} {K : Matrix (Fin n) (Fin n) ℝ}
    (h : φ.objective.HasValue x v ∧ φ.objective.HasGradient x g ∧ φ.objective.HasHessian x K) :
    φ.toSmooth.HasValue x (φ.weight * v) ∧ φ.toSmooth.HasGradient x (φ.weight • g) ∧
      φ.toSmooth.HasHessian x (φ.weight • K) := by
  have hnone : ∀ {P : Smooth ℝ n → Prop}, ∀ c ∈ φ.constraints, P c := by
    intro P c hc
    rw [hconstraints] at hc
    exact absurd hc List.not_mem_nil
  have hvalue := φ.hasValue_of_feasible (u := fun _ => -1) rfl h.1 hnone hnone
  have hgradient := φ.hasGradient_of_ne_zero (u := fun _ => -1) (d := fun _ => 0) rfl h.2.1
    hnone hnone hnone
  have hhessian := φ.hasHessian_of_ne_zero (u := fun _ => -1) (d := fun _ => 0) (K := fun _ => 0)
    rfl h.2.2 hnone hnone hnone hnone
  rw [hconstraints, List.map_nil, List.sum_nil] at hvalue hgradient hhessian
  rw [sub_zero] at hvalue
  rw [add_zero] at hgradient hhessian
  exact ⟨hvalue, hgradient, hhessian⟩

/-- Over a strictly convex quadratic function it is one itself. -/
theorem exists_isParabola (hweight : 0 < φ.weight) {q : Quadratic ℝ n}
    (hobjective : φ.objective = q.toSmooth) (hconstraints : φ.constraints = [])
    (hq : q.a.toMatrix.PosDef) : ∃ F G H, φ.toSmooth.IsParabola F G H := by
  have hformulas := q.formulas_toSmooth
  rw [← hobjective] at hformulas
  have hφ := fun x => formulas_of_constraints_eq_nil hconstraints (hformulas x)
  have hsymm := Matrix.isHermitian_iff_isSymm.mp hq.isHermitian
  refine ⟨_, _, _, fun x => (hφ x).1, fun x => (hφ x).2.1, fun x => (hφ x).2.2,
    hq.smul hweight, fun x u => ?_, fun x u => ?_⟩
  · rw [Matrix.mulVec_add, Matrix.smul_mulVec, ← smul_add]
    congr 1
    abel
  · have h := Quadratic.valueOf_add_smul hsymm q.b.get q.c x u 1
    rw [one_smul] at h
    rw [h, smul_dotProduct, Matrix.smul_mulVec, dotProduct_smul]
    simp only [smul_eq_mul]
    ring

end Barrier

/-! ## One step -/

namespace Smooth.IsParabola

variable {f : Smooth ℝ n} {F : (Fin n → ℝ) → ℝ} {G : (Fin n → ℝ) → Fin n → ℝ}
  {H : Matrix (Fin n) (Fin n) ℝ} {E : Option (Matrix (Fin p) (Fin n) ℝ)} {x v : Fin n → ℝ}

/-- The Hessian is symmetric. -/
theorem isSymm (hf : f.IsParabola F G H) : H.IsSymm :=
  Matrix.isHermitian_iff_isSymm.mp hf.posDef.isHermitian

/-- The slope along a Newton step is the negative squared decrement. -/
theorem slope_eq (hv : Newton.IsNewtonStep E H (G x) v) : G x ⬝ᵥ v = -(v ⬝ᵥ H *ᵥ v) := by
  have h := hv.stationary v hv.tangent
  rw [dotProduct_add, dotProduct_comm v (G x)] at h
  exact eq_neg_of_add_eq_zero_right h

/-- **After a Newton step the gradient vanishes along every tangent.** -/
theorem dotProduct_gradient_add (hf : f.IsParabola F G H) (hv : Newton.IsNewtonStep E H (G x) v)
    {u : Fin n → ℝ} (hu : ∀ A ∈ E, A *ᵥ u = 0) : G (x + v) ⬝ᵥ u = 0 := by
  rw [hf.gradient_add, dotProduct_comm]
  exact hv.stationary u hu

/-- **A Newton step leads to the minimizer** among the points with the same `A·x`. -/
theorem value_lt (hf : f.IsParabola F G H) (hv : Newton.IsNewtonStep E H (G x) v)
    {y : Fin n → ℝ} (hy : ∀ A ∈ E, A *ᵥ y = A *ᵥ x) (hne : y ≠ x + v) : F (x + v) < F y := by
  have htangent : ∀ A ∈ E, A *ᵥ (y - (x + v)) = 0 := by
    intro A hA
    rw [Matrix.mulVec_sub, Matrix.mulVec_add, hy A hA, hv.tangent A hA, add_zero, sub_self]
  have hcurvature := hf.posDef.dotProduct_mulVec_pos (sub_ne_zero.mpr hne)
  have hvalue := hf.value_add (x + v) (y - (x + v))
  rw [add_sub_cancel, hf.dotProduct_gradient_add hv htangent] at hvalue
  rw [star_trivial] at hcurvature
  rw [hvalue]
  linarith

/-- A direction without curvature is zero. -/
theorem eq_zero_of_curvature (hf : f.IsParabola F G H) (hv : v ⬝ᵥ H *ᵥ v ≤ 0) : v = 0 := by
  by_contra hne
  have hpos := hf.posDef.dotProduct_mulVec_pos hne
  rw [star_trivial] at hpos
  exact absurd hpos hv.not_gt

/-- **The next step has no curvature.** -/
theorem curvature_next (hf : f.IsParabola F G H) (hv : Newton.IsNewtonStep E H (G x) v)
    {w : Fin n → ℝ} (hw : Newton.IsNewtonStep E H (G (x + v)) w) : w ⬝ᵥ H *ᵥ w = 0 := by
  have h := slope_eq hw
  rw [hf.dotProduct_gradient_add hv hw.tangent] at h
  exact neg_eq_zero.mp h.symm

/-- **The full step is taken**, at the first trial. -/
theorem outcome_stepLength (hf : f.IsParabola F G H) (hv : Newton.IsNewtonStep E H (G x) v) :
    (({} : LineSearch ℝ).stepLength f (vec x) (vec (G x)) (vec v)).outcome = .ok 1 := by
  refine LineSearch.outcome_stepLength_eq_ok.mpr ⟨_, hf.value x,
    LineSearch.outcome_search_eq_ok_iff.mpr ⟨0, ?_, rfl, ⟨F (x + v), ?_, ?_⟩,
      fun j hj => absurd hj (Nat.not_lt_zero j)⟩⟩
  · show 0 < 1000000
    decide
  · show (f.value (LineSearch.trial (vec x : Vec ℝ n) (vec v) (real 1)).toArray).outcome = _
    rw [LineSearch.trial_vec, one_smul]
    exact hf.value (x + v)
  · have hfraction : ({} : LineSearch ℝ).fraction = 1 / 4 := by
      show ((1 : ℕ) : ℝ) / ((4 : ℕ) : ℝ) = 1 / 4
      norm_num
    have hnonneg := hf.posDef.posSemidef.dotProduct_mulVec_nonneg v
    rw [star_trivial] at hnonneg
    rintro ⟨hlarge, -⟩
    rw [hfraction, dot_vec, hf.value_add, slope_eq hv] at hlarge
    have hlarge : F x + 1 / 4 * 1 * -(v ⬝ᵥ H *ᵥ v)
      < F x + -(v ⬝ᵥ H *ᵥ v) + 1 / 2 * (v ⬝ᵥ H *ᵥ v) := hlarge
    linarith

end Smooth.IsParabola

/-! ## The run -/

namespace Newton

/-- A step that is small enough ends an iteration. -/
theorem outcome_iterate_of_stop {α : Type} [Scalar α] {s : Solver α} {eq : Option (Equations α)}
    {f : Smooth α n} {tolerance : α} {x : Array α} {g : Vec α n} {step : Step α n}
    (hdirection : (direction s eq f x).outcome = .ok (g, step))
    (hsmall : step.decrementSquared / Scalar.two ≤ tolerance) (remaining done : ℕ) :
    (iterate s eq f tolerance remaining done x).outcome
      = .ok { point := x, outcome := .ok (done, step.decrementSquared) } := by
  rw [outcome_iterate, hdirection]
  exact if_pos hsmall

variable {s : Solver ℝ} {f : Smooth ℝ n} {F : (Fin n → ℝ) → ℝ} {G : (Fin n → ℝ) → Fin n → ℝ}
  {H : Matrix (Fin n) (Fin n) ℝ} {E : Option (Matrix (Fin p) (Fin n) ℝ)} {x : Fin n → ℝ}

/-- A direction at a point: the Newton step there. -/
theorem exists_isNewtonStep_of_outcome_direction (hreg : s.settings.regularization = 0)
    (hf : f.IsParabola F G H) {g : Vec ℝ n} {step : Step ℝ n}
    (hdirection : (direction s (E.map Equations.homogeneous) f (vec x).toArray).outcome
      = .ok (g, step)) :
    g = vec (G x) ∧ ∃ v, IsNewtonStep E H (G x) v ∧ step.v = vec v ∧
      step.decrementSquared = v ⬝ᵥ H *ᵥ v := by
  obtain ⟨rfl, hstep⟩ :=
    (outcome_direction_eq_ok_iff (hf.gradient x) (hf.hessian x)).mp hdirection
  exact ⟨rfl, exists_isNewtonStep_of_outcome_stepAt hreg hf.isSymm hstep⟩

/-- Where there is a direction at one point, there is one at every point. -/
theorem exists_outcome_direction_of_isParabola (hreg : s.settings.regularization = 0)
    (hf : f.IsParabola F G H) {r : Vec ℝ n × Step ℝ n}
    (hdirection : (direction s (E.map Equations.homogeneous) f (vec x).toArray).outcome = .ok r)
    (y : Fin n → ℝ) :
    ∃ r', (direction s (E.map Equations.homogeneous) f (vec y).toArray).outcome = .ok r' := by
  obtain ⟨g, step⟩ := r
  obtain ⟨-, hstep⟩ := (outcome_direction_eq_ok_iff (hf.gradient x) (hf.hessian x)).mp hdirection
  obtain ⟨step', hstep'⟩ := exists_outcome_stepAt_of_outcome_stepAt hreg hf.isSymm hstep (G y)
  exact ⟨_, (outcome_direction_eq_ok_iff (hf.gradient y) (hf.hessian y)).mpr ⟨rfl, hstep'⟩⟩

/-- **A run on a strictly convex quadratic function** ends at the minimizer, after one round or
none. -/
theorem exists_finish_of_isParabola (hreg : s.settings.regularization = 0)
    (hf : f.IsParabola F G H) {r : Vec ℝ n × Step ℝ n}
    (hfirst : (direction s (E.map Equations.homogeneous) f (vec x).toArray).outcome = .ok r)
    {limit : ℕ} (hlimit : 1 ≤ limit) :
    ∃ k ≤ 1, ∃ v, IsNewtonStep E H (G x) v ∧
      (minimize s (E.map Equations.homogeneous) f 0 limit (vec x).toArray).outcome
        = .ok { point := (vec (x + v)).toArray, outcome := .ok (k, 0) } := by
  obtain ⟨limit, rfl⟩ := Nat.exists_eq_add_of_le' hlimit
  obtain ⟨g, step⟩ := r
  obtain ⟨rfl, v, hv, hstep, hdecrement⟩ :=
    exists_isNewtonStep_of_outcome_direction hreg hf hfirst
  have hhalf : step.decrementSquared / Scalar.two ≤ 0 ↔ v ⬝ᵥ H *ᵥ v ≤ 0 := by
    rw [hdecrement]
    show _ / ((2 : ℕ) : ℝ) ≤ 0 ↔ _
    rw [div_le_iff₀ (by norm_num), zero_mul]
  by_cases hsmall : step.decrementSquared / Scalar.two ≤ 0
  · -- the run starts at the minimizer
    obtain rfl := hf.eq_zero_of_curvature (hhalf.mp hsmall)
    have hend := outcome_iterate_of_stop hfirst hsmall (limit + 1) 0
    rw [hdecrement, zero_dotProduct] at hend
    refine ⟨0, zero_le_one, 0, hv, ?_⟩
    rw [add_zero]
    exact hend
  · obtain ⟨⟨g', step'⟩, hsecond⟩ :=
      exists_outcome_direction_of_isParabola hreg hf hfirst (x + v)
    obtain ⟨rfl, w, hw, -, hdecrement'⟩ :=
      exists_isNewtonStep_of_outcome_direction hreg hf hsecond
    have hround : Round s (E.map Equations.homogeneous) f 0 (vec x).toArray
        (vec (x + v)).toArray := by
      refine round_iff.mpr ⟨_, step, 1, hfirst, hsmall, ?_, ?_⟩
      · rw [hstep]
        exact hf.outcome_stepLength hv
      · rw [hstep]
        show _ = (Vec.addScaled (real 1) (vec v) (vec x)).toArray
        rw [addScaled_vec, one_smul, add_comm]
    have hzero : step'.decrementSquared = 0 := hdecrement'.trans (hf.curvature_next hv hw)
    have hstop : step'.decrementSquared / Scalar.two ≤ 0 := by rw [hzero, zero_div]
    have hend := outcome_iterate_of_stop hsecond hstop limit 1
    rw [hzero] at hend
    exact ⟨1, le_rfl, v, hv, (outcome_iterate_of_round hround limit 0).trans hend⟩

end Newton

/-- **The law of runs on strictly convex quadratic functions.** For a barrier of positive weight
without constraints over a quadratic function with a symmetric positive definite quadratic term,
under equations with the residual zero or without equations, without regularization and with the
tolerance zero: if there is a step at the start, the iteration ends after at most one round, with a
squared decrement of zero, at the unique minimizer of the barrier among the points that satisfy the
same equations as the start. -/
theorem quadratic_run_law (s : Solver ℝ) (hreg : s.settings.regularization = 0) (φ : Barrier ℝ n)
    (hweight : 0 < φ.weight) (q : Quadratic ℝ n) (hobjective : φ.objective = q.toSmooth)
    (hconstraints : φ.constraints = []) (hq : q.a.toMatrix.PosDef)
    (E : Option (Matrix (Fin p) (Fin n) ℝ)) (x : Fin n → ℝ)
    (hfirst : ∃ r, (Newton.direction s (E.map Equations.homogeneous) φ.toSmooth
      (vec x).toArray).outcome = .ok r) (limit : ℕ) (hlimit : 1 ≤ limit) :
    ∃ k ≤ 1, ∃ z, (Newton.minimize s (E.map Equations.homogeneous) φ.toSmooth 0 limit
        (vec x).toArray).outcome = .ok { point := (vec z).toArray, outcome := .ok (k, 0) } ∧
      (∀ A ∈ E, A *ᵥ z = A *ᵥ x) ∧
      ∃ F : (Fin n → ℝ) → ℝ, (∀ y, φ.toSmooth.HasValue y (F y)) ∧
        ∀ y, (∀ A ∈ E, A *ᵥ y = A *ᵥ x) → y ≠ z → F z < F y := by
  obtain ⟨F, G, H, hφ⟩ := Barrier.exists_isParabola hweight hobjective hconstraints hq
  obtain ⟨r, hfirst⟩ := hfirst
  obtain ⟨k, hk, v, hv, hrun⟩ := Newton.exists_finish_of_isParabola hreg hφ hfirst hlimit
  refine ⟨k, hk, x + v, hrun, fun A hA => ?_, F, hφ.value, fun y hy hne => hφ.value_lt hv hy hne⟩
  rw [Matrix.mulVec_add, hv.tangent A hA, add_zero]

/-! ### The point of a line that is closest to the origin -/

namespace Solver

/-- The block matrix of the identity under the equation that two variables add up, with the last
entry that elimination has got to. -/
noncomputable def levelled (a : ℝ) : Mat ℝ 3 3 := mat !![1, 0, 1; 0, 1, 1; 1, 1, a]

/-- Elimination exchanges no rows and changes nothing but the last entry. -/
theorem packed_eliminate_levelled {F : Lu ℝ 3} {a : ℝ} (hF : F.packed = levelled a) {k : Fin 3}
    (hk : Mat.entry (levelled a) k k ≠ 0) :
    (F.eliminate k).packed = levelled (if k = 2 then a else a - 1) := by
  have hpivot : Lu.pivotRow F.packed k = k := by
    rw [hF]
    fin_cases k <;> norm_num [Lu.pivotRow, Fin.foldl_succ, levelled]
  have hreal : ∀ x : ℝ, (real x : ℝ) = x := fun _ => rfl
  rw [Lu.eliminate_of_pivot_ne_zero (by rwa [hpivot, hF])]
  dsimp only
  rw [hpivot, hF]
  refine Mat.ext_entry fun i j => ?_
  rw [Lu.entry_clearColumn]
  fin_cases k <;> fin_cases i <;> fin_cases j <;>
    simp [Mat.entry_swapRows, levelled, hreal, Fin.lt_def, Fin.le_def, neg_add_eq_sub]

theorem pivots_levelled : (Lu.factor (levelled 0)).pivots.toList = [1, 1, -2] := by
  have hfirst := packed_eliminate_levelled (F := ⟨levelled 0, []⟩) (a := 0) (k := 0) rfl
    (show (1 : ℝ) ≠ 0 by norm_num)
  rw [if_neg (by decide)] at hfirst
  have hsecond := packed_eliminate_levelled (k := 1) hfirst (show (1 : ℝ) ≠ 0 by norm_num)
  rw [if_neg (by decide)] at hsecond
  have hlast := packed_eliminate_levelled (k := 2) hsecond
    (show (0 - 1 - 1 : ℝ) ≠ 0 by norm_num)
  rw [if_pos rfl] at hlast
  have hfactor : (Lu.factor (levelled 0)).packed = levelled (-2) :=
    hlast.trans (congrArg levelled (by norm_num))
  rw [Lu.pivots, hfactor]
  rfl

theorem outcome_checkPivots_levelled :
    (unchecked.checkPivots (Lu.factor (levelled 0))).outcome = .ok () := by
  have htolerance : unchecked.settings.pivotTolerance * 2 < 1 := by
    show ((1 : ℕ) : ℝ) / ((Nat.pow 10 13 : ℕ) : ℝ) * 2 < 1
    norm_num
  rw [outcome_checkPivots, pivots_levelled]
  refine if_neg ?_
  simpa [Vec.smallestAbs, Vec.largestAbs] using htolerance

end Solver

/-- Half the square of the distance from the origin. -/
noncomputable def Quadratic.bowl : Quadratic ℝ 2 := .halfSquare Nat.two_pos

/-- A barrier without constraints. -/
noncomputable def Barrier.bowl : Barrier ℝ 2 where
  weight := 1
  objective := Quadratic.bowl.toSmooth
  constraints := []
  weight_finite := rfl
  weight_not_neg := zero_le_one.not_gt

/-- There is a step at every point under the equation that the two variables add up. -/
theorem Newton.exists_outcome_direction_bowl (x : Fin 2 → ℝ) :
    ∃ r, (direction Solver.unchecked (some (Equations.homogeneous !![1, 1])) Barrier.bowl.toSmooth
      (vec x).toArray).outcome = .ok r := by
  obtain ⟨-, hgradient, hhessian⟩ := Barrier.formulas_of_constraints_eq_nil (φ := Barrier.bowl)
    rfl (Quadratic.bowl.formulas_toSmooth x)
  have hone : Barrier.bowl.weight • Quadratic.bowl.a.toMatrix = 1 :=
    (one_smul ℝ _).trans (toMatrix_mat_real 1)
  rw [hone] at hhessian
  have hmatrix : Solver.unchecked.blockMatrix (mat 1 : Mat ℝ 2 2) (mat !![1, 1] : Mat ℝ 1 2)
      (Mat.transpose (mat !![1, 1])) = Solver.levelled 0 := by
    rw [Solver.blockMatrix_of_regularization rfl]
    refine Mat.ext_entry fun i j => ?_
    fin_cases i <;> fin_cases j <;> rfl
  obtain ⟨step, hstep⟩ := (Solver.exists_outcome_solveBlock_iff Solver.validate_unchecked
    (mat 1 : Mat ℝ 2 2) (mat !![1, 1] : Mat ℝ 1 2) (Mat.transpose (mat !![1, 1])) _ (vec 0)).mpr
    ⟨rfl, hmatrix ▸ Solver.outcome_checkPivots_levelled⟩
  rw [← Solver.outcome_solve Solver.validate_unchecked two_ne_zero
      (Dense.checkTranspose_symmetryTolerance _),
    ← stepAt_homogeneous] at hstep
  exact ⟨_, outcome_direction_eq_ok.mpr ⟨hgradient, _, hhessian, hstep⟩⟩

/-- The law for the point of a line that is closest to the origin. -/
theorem quadratic_run_law_bowl :
    Solver.unchecked.settings.regularization = 0 ∧ 0 < Barrier.bowl.weight ∧
    Barrier.bowl.objective = Quadratic.bowl.toSmooth ∧ Barrier.bowl.constraints = [] ∧
    Quadratic.bowl.a.toMatrix.PosDef ∧
    ∃ k ≤ 1, ∃ z : Fin 2 → ℝ, (Newton.minimize Solver.unchecked
        (some (Equations.homogeneous !![1, 1])) Barrier.bowl.toSmooth 0 7
        (vec ![1, 0]).toArray).outcome = .ok { point := (vec z).toArray, outcome := .ok (k, 0) } ∧
      z 0 + z 1 = 1 := by
  have hweight : 0 < Barrier.bowl.weight := zero_lt_one (α := ℝ)
  have hq : Quadratic.bowl.a.toMatrix.PosDef := by
    rw [show Quadratic.bowl.a.toMatrix = 1 from toMatrix_mat_real 1]
    exact Matrix.PosDef.one
  obtain ⟨k, hk, z, hrun, hequation, -⟩ := quadratic_run_law Solver.unchecked rfl Barrier.bowl
    hweight Quadratic.bowl rfl rfl hq (some !![1, 1]) ![1, 0]
    (Newton.exists_outcome_direction_bowl _) 7 (by norm_num)
  refine ⟨rfl, hweight, rfl, rfl, hq, k, hk, z, hrun, ?_⟩
  have h := congrFun (hequation _ rfl) 0
  simpa [Matrix.mulVec, dotProduct, Fin.sum_univ_two] using h

end InteriorPoint

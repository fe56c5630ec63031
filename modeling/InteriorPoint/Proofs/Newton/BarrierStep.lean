import InteriorPoint.Newton.Descent
import InteriorPoint.Proofs.Function.BarrierContract
import InteriorPoint.Proofs.Function.BarrierCurvature
import InteriorPoint.Proofs.Function.QuadraticFormulas
import InteriorPoint.Proofs.Kkt.ReducedStep

/-!
# Newton steps of a barrier

At a strictly feasible point of a barrier with convex components

* there is a Newton step exactly if the Hessian of the barrier is flat along no direction, always
  with regularization, and the step is a direction of descent (`barrier_step_law`)
* a step stays among the strictly feasible points of quadratic constraints, if its length times
  the decrement is less than one (`small_step_law`)

For the second, the squared decrement is the curvature of the barrier along the step, which bounds
the curvature `(d·v/u)² − vᵀKv/u` of each constraint. A constraint is a parabola along the step, and
the bound keeps this parabola below zero (`parabola_neg`).
-/

open scoped Matrix

namespace InteriorPoint

open Exact

variable {n : ℕ}

/-! ## The direction at a point -/

namespace Newton

variable {α : Type} [Scalar α] {s : Solver α} {eq : Option (Equations α)} {f : Smooth α n}
  {x : Array α} {g : Vec α n} {H : Mat α n n} {step : Step α n}

/-- Where the derivatives are found, the direction is the step at them. -/
theorem outcome_direction (hg : (f.gradient x).outcome = .ok g)
    (hH : (f.hessian x).outcome = .ok H) :
    (direction s eq f x).outcome = (stepAt s eq g H).outcome.map (g, ·) := by
  unfold direction
  rw [Answer.outcome_bind, hg]
  show (f.hessian x >>= fun H => _ : Answer α (Vec α n × Step α n)).outcome = _
  rw [Answer.outcome_bind, hH]
  show (stepAt s eq g H >>= fun step => pure (g, step)).outcome = _
  rw [Answer.outcome_bind]
  cases (stepAt s eq g H).outcome with
  | error e => rfl
  | ok step => rfl

/-- **There is a direction** exactly if there are both derivatives and a step at them. -/
theorem outcome_direction_eq_ok :
    (direction s eq f x).outcome = .ok (g, step) ↔
      (f.gradient x).outcome = .ok g ∧
        ∃ H, (f.hessian x).outcome = .ok H ∧ (stepAt s eq g H).outcome = .ok step := by
  unfold direction
  simp only [Answer.outcome_bind_eq_ok]
  constructor
  · rintro ⟨g', hg, H, hH, step', hstep, hpair⟩
    obtain ⟨rfl, rfl⟩ := Prod.mk.inj (Except.ok.inj hpair)
    exact ⟨hg, H, hH, hstep⟩
  · rintro ⟨hg, H, hH, hstep⟩
    exact ⟨g, hg, H, hH, step, hstep, rfl⟩

/-- At known derivatives the direction is known, up to the step. -/
theorem outcome_direction_eq_ok_iff (hg : (f.gradient x).outcome = .ok g)
    (hH : (f.hessian x).outcome = .ok H) {g' : Vec α n} :
    (direction s eq f x).outcome = .ok (g', step) ↔
      g' = g ∧ (stepAt s eq g H).outcome = .ok step := by
  rw [outcome_direction_eq_ok, hg, hH]
  constructor
  · rintro ⟨hg', H', hH', hstep⟩
    obtain rfl := Except.ok.inj hg'
    obtain rfl := Except.ok.inj hH'
    exact ⟨rfl, hstep⟩
  · rintro ⟨rfl, hstep⟩
    exact ⟨rfl, H, rfl, hstep⟩

/-- **The squared decrement is the curvature along the step**, with equations or without, if there
is no regularization. -/
theorem decrementSquared_of_outcome_stepAt {s : Solver ℝ} {eq : Option (Equations ℝ)}
    (hreg : s.settings.regularization = 0) {g : Vec ℝ n} {H : Mat ℝ n n} {step : Step ℝ n}
    (hH : H.toMatrix.IsSymm) (hstep : (stepAt s eq g H).outcome = .ok step) :
    step.decrementSquared = step.v.get ⬝ᵥ H.toMatrix *ᵥ step.v.get := by
  cases eq with
  | none =>
    obtain ⟨hvalid, -, H', hH', hdense⟩ := Solver.outcome_solveReduced_eq_ok.mp hstep
    obtain rfl := Dense.ofMat_inj hH'
    exact Solver.decrementSquared_of_outcome_solveDense hvalid hreg hH hdense
  | some eq =>
    obtain ⟨-, -, H', A, T, hH', -, -, -, hblock⟩ := Solver.outcome_solve_eq_ok.mp hstep
    obtain rfl := Dense.ofMat_inj hH'
    obtain ⟨-, -, y, -, rfl⟩ := Solver.outcome_solveBlock_eq_ok.mp hblock
    show Vec.dot (Block.head _) (Mat.mulVec H (Block.head _)) = _
    rw [Vec.dot_eq, Mat.get_mulVec_eq]
    rfl

/-- **Without equations** there is a step exactly if the regularized Hessian is positive definite,
and it is refined; otherwise the Hessian is refused as not positive definite. -/
theorem outcome_direction_none_cases {s : Solver ℝ} (hvalid : s.settings.validate = .ok ())
    (hn : 0 < n) {f : Smooth ℝ n} {x g : Fin n → ℝ} {H : Matrix (Fin n) (Fin n) ℝ}
    (hg : f.HasGradient x g) (hH : f.HasHessian x H) (hsymm : H.IsSymm) :
    ((H + s.settings.regularization • 1).PosDef ∧
      ∃ v, (direction s none f (vec x).toArray).outcome
          = .ok (vec g, Solver.reducedStep (vec g) v) ∧
        Refined H s.settings.regularization (-g) v.get) ∨
    (¬ (H + s.settings.regularization • 1).PosDef ∧
      ∃ cause, (direction s none f (vec x).toArray).outcome
        = .error (.error (.notPositiveDefinite cause))) := by
  have hdirection : (direction s none f (vec x).toArray).outcome
      = (s.solveDense (mat H) (vec g)).outcome.map (vec g, ·) := by
    rw [outcome_direction hg hH]
    exact congrArg _ (Solver.outcome_solveReduced hvalid hn.ne' (mat H) (vec g))
  rw [← toMatrix_mat_real H] at hsymm
  have hcases := s.outcome_solveDense_cases (mat H) (vec g)
  rw [Solver.mirrored_shiftDiagonal hsymm, toMatrix_mat_real] at hcases
  rw [hdirection]
  obtain ⟨hposDef, F, -, hstep⟩ | ⟨hposDef, hrefuse⟩ := hcases
  · have hrefined := (Solver.refined_of_outcome_solveDense hvalid hsymm hstep).2
    rw [toMatrix_mat_real, get_vec_real] at hrefined
    exact Or.inl ⟨hposDef, _, congrArg _ hstep, hrefined⟩
  · exact Or.inr ⟨hposDef, _, congrArg _ hrefuse⟩

end Newton

/-! ## The derivatives at a strictly feasible point -/

namespace Barrier

variable {φ : Barrier ℝ n} {x : Fin n → ℝ}

/-- The weight is not negative. -/
theorem weight_nonneg (φ : Barrier ℝ n) : 0 ≤ φ.weight := not_lt.mp φ.weight_not_neg

/-- **Strict feasibility**: every constraint has a negative value. -/
theorem strictlyFeasibleAt_iff :
    φ.StrictlyFeasibleAt x ↔ ∀ c ∈ φ.constraints, ∃ u, c.HasValue x u ∧ u < 0 :=
  φ.isStrictlyFeasible_eq_ok_true (vec x)

/-- **The Hessian of a barrier at a strictly feasible point**, from the values, gradients and
Hessians of its components. -/
theorem hasHessian_of_neg {u : Smooth ℝ n → ℝ} {d : Smooth ℝ n → Fin n → ℝ}
    {K : Smooth ℝ n → Matrix (Fin n) (Fin n) ℝ} {K₀ : Matrix (Fin n) (Fin n) ℝ}
    (h₀ : φ.objective.HasHessian x K₀) (hu : ∀ c ∈ φ.constraints, c.HasValue x (u c) ∧ u c < 0)
    (hd : ∀ c ∈ φ.constraints, c.HasGradient x (d c))
    (hK : ∀ c ∈ φ.constraints, c.HasHessian x (K c)) :
    φ.toSmooth.HasHessian x
      (φ.weight • K₀ + (φ.constraints.map fun c => curvature (u c) (d c) (K c)).sum) :=
  φ.hasHessian_of_ne_zero rfl h₀ (fun c hc => (hu c hc).1) (fun c hc => (hu c hc).2.ne) hd hK

/-- **The Hessian of a convex barrier** is positive semidefinite, and its curvature bounds that of
each constraint. -/
theorem curvature_le_of_hasHessian {u : Smooth ℝ n → ℝ} {d : Smooth ℝ n → Fin n → ℝ}
    {K : Smooth ℝ n → Matrix (Fin n) (Fin n) ℝ} {K₀ H : Matrix (Fin n) (Fin n) ℝ}
    (h₀ : φ.objective.HasHessian x K₀) (hconvex₀ : K₀.PosSemidef)
    (hu : ∀ c ∈ φ.constraints, c.HasValue x (u c) ∧ u c < 0)
    (hd : ∀ c ∈ φ.constraints, c.HasGradient x (d c))
    (hK : ∀ c ∈ φ.constraints, c.HasHessian x (K c))
    (hconvex : ∀ c ∈ φ.constraints, (K c).PosSemidef) (hH : φ.toSmooth.HasHessian x H) :
    H.PosSemidef ∧ ∀ c ∈ φ.constraints, ∀ h,
      (d c ⬝ᵥ h / u c) ^ 2 - h ⬝ᵥ K c *ᵥ h / u c ≤ h ⬝ᵥ H *ᵥ h := by
  have hneg : ∀ c ∈ φ.constraints, u c < 0 := fun c hc => (hu c hc).2
  rw [mat_injective (Except.ok.inj (hH.symm.trans (hasHessian_of_neg h₀ hu hd hK)))]
  exact ⟨posSemidef_hessian φ.weight_nonneg hconvex₀ hneg hconvex,
    fun c hc h => curvature_le_of_mem φ.weight_nonneg hconvex₀ hneg hconvex h hc⟩

/-- **The derivatives of a convex barrier at a strictly feasible point**: there are both, and the
Hessian is positive semidefinite, and positive definite exactly if it is flat along no direction. -/
theorem exists_derivatives (hx : φ.StrictlyFeasibleAt x) {d : Smooth ℝ n → Fin n → ℝ}
    {K : Smooth ℝ n → Matrix (Fin n) (Fin n) ℝ}
    (hd : ∀ f ∈ φ.objective :: φ.constraints, f.HasGradient x (d f))
    (hK : ∀ f ∈ φ.objective :: φ.constraints, f.HasHessian x (K f))
    (hconvex : ∀ f ∈ φ.objective :: φ.constraints, (K f).PosSemidef) :
    ∃ g H, φ.toSmooth.HasGradient x g ∧ φ.toSmooth.HasHessian x H ∧ H.PosSemidef ∧
      (H.PosDef ↔ NoFlatDirection φ.weight (K φ.objective) φ.constraints d K) := by
  obtain ⟨hd₀, hd⟩ := List.forall_mem_cons.mp hd
  obtain ⟨hK₀, hK⟩ := List.forall_mem_cons.mp hK
  obtain ⟨hconvex₀, hconvex⟩ := List.forall_mem_cons.mp hconvex
  choose! u hu using strictlyFeasibleAt_iff.mp hx
  have hneg : ∀ c ∈ φ.constraints, u c < 0 := fun c hc => (hu c hc).2
  have hg := φ.hasGradient_of_ne_zero rfl hd₀ (fun c hc => (hu c hc).1)
    (fun c hc => (hneg c hc).ne) hd
  refine ⟨_, _, hg, hasHessian_of_neg hK₀ hu hd hK, ?_, ?_⟩
  · exact posSemidef_hessian φ.weight_nonneg hconvex₀ hneg hconvex
  · exact posDef_hessian_iff φ.weight_nonneg hconvex₀ hneg hconvex

end Barrier

/-! ## The existence of a step -/

/-- **The law of the Newton step of a convex barrier**, a function of at least one variable, whose
objective and constraints have gradients `d` and positive semidefinite Hessians `K` at a strictly
feasible point. Without regularization there is a step exactly if the barrier is flat along no
direction, and otherwise its Hessian is refused as not positive definite. With regularization there
is always a step. Any step is a direction of descent, unless the gradient of the barrier is zero. -/
theorem barrier_step_law (s : Solver ℝ) (hvalid : s.settings.validate = .ok ()) (hn : 0 < n)
    (φ : Barrier ℝ n) (x : Fin n → ℝ) (hx : φ.StrictlyFeasibleAt x) (d : Smooth ℝ n → Fin n → ℝ)
    (K : Smooth ℝ n → Matrix (Fin n) (Fin n) ℝ)
    (hd : ∀ f ∈ φ.objective :: φ.constraints, f.HasGradient x (d f))
    (hK : ∀ f ∈ φ.objective :: φ.constraints, f.HasHessian x (K f))
    (hconvex : ∀ f ∈ φ.objective :: φ.constraints, (K f).PosSemidef) :
    (s.settings.regularization = 0 →
      ((∃ r, (Newton.direction s none φ.toSmooth (vec x).toArray).outcome = .ok r) ↔
        Barrier.NoFlatDirection φ.weight (K φ.objective) φ.constraints d K) ∧
      (¬ Barrier.NoFlatDirection φ.weight (K φ.objective) φ.constraints d K →
        ∃ cause, (Newton.direction s none φ.toSmooth (vec x).toArray).outcome
          = .error (.error (.notPositiveDefinite cause)))) ∧
    (0 < s.settings.regularization →
      ∃ r, (Newton.direction s none φ.toSmooth (vec x).toArray).outcome = .ok r) ∧
    ∀ g step, (Newton.direction s none φ.toSmooth (vec x).toArray).outcome = .ok (g, step) →
      φ.toSmooth.HasGradient x g.get ∧ (g.get ≠ 0 → g.get ⬝ᵥ step.v.get < 0) := by
  obtain ⟨g, H, hg, hH, hsemidef, hflat⟩ := Barrier.exists_derivatives hx hd hK hconvex
  have hsymm := Matrix.isHermitian_iff_isSymm.mp hsemidef.isHermitian
  have hcases := Newton.outcome_direction_none_cases hvalid hn hg hH hsymm
  refine ⟨fun hreg => ?_, fun hreg => ?_, fun g' step' hok => ?_⟩
  · rw [hreg, zero_smul, add_zero] at hcases
    rw [← hflat]
    obtain ⟨hposDef, v, hstep, -⟩ | ⟨hposDef, cause, hcause⟩ := hcases
    · exact ⟨iff_of_true ⟨_, hstep⟩ hposDef, fun h => absurd hposDef h⟩
    · exact ⟨iff_of_false (fun ⟨_, h⟩ => nomatch hcause.symm.trans h) hposDef,
        fun _ => ⟨cause, hcause⟩⟩
  · have hposDef : (H + s.settings.regularization • 1).PosDef :=
      Matrix.PosDef.posSemidef_add hsemidef (Matrix.PosDef.one.smul hreg)
    obtain ⟨-, v, hstep, -⟩ | ⟨hne, -⟩ := hcases
    · exact ⟨_, hstep⟩
    · exact absurd hposDef hne
  · obtain ⟨-, v, hstep, hrefined⟩ | ⟨-, cause, hcause⟩ := hcases
    · obtain ⟨rfl, rfl⟩ := Prod.mk.inj (Except.ok.inj (hstep.symm.trans hok))
      rw [get_vec_real]
      exact ⟨hg, hrefined.dotProduct_neg⟩
    · exact nomatch hcause.symm.trans hok

/-! ### A barrier of the unit disc -/

/-- The function whose negative values are taken inside the unit disc. -/
noncomputable def Quadratic.disc : Quadratic ℝ 2 :=
  .ofTerms Nat.two_pos (A := (2 : ℝ) • 1) (Matrix.isSymm_one.smul 2) 0 (-1)

/-- The formulas of the disc. -/
theorem Quadratic.formulas_disc (x : Fin 2 → ℝ) :
    disc.toSmooth.HasValue x (x 0 ^ 2 + x 1 ^ 2 - 1) ∧
      disc.toSmooth.HasGradient x ((2 : ℝ) • x) ∧ disc.toSmooth.HasHessian x ((2 : ℝ) • 1) := by
  have hvalue : valueOf ((2 : ℝ) • 1) 0 (-1) x = x 0 ^ 2 + x 1 ^ 2 - 1 := by
    rw [valueOf, Matrix.smul_mulVec, Matrix.one_mulVec, dotProduct_smul, zero_dotProduct,
      dotProduct, Fin.sum_univ_two, smul_eq_mul]
    ring
  have hgradient : ((2 : ℝ) • 1 : Matrix (Fin 2) (Fin 2) ℝ) *ᵥ x + 0 = (2 : ℝ) • x := by
    rw [Matrix.smul_mulVec, Matrix.one_mulVec, add_zero]
  rw [← hvalue, ← hgradient]
  exact ⟨hasValue_toSmooth rfl rfl rfl x, hasGradient_toSmooth rfl rfl x, hasHessian_toSmooth rfl x⟩

namespace Barrier

/-- **Centering**: a barrier of the unit disc whose objective does not count. -/
noncomputable def centering : Barrier ℝ 2 where
  weight := 0
  objective := Quadratic.disc.toSmooth
  constraints := [Quadratic.disc.toSmooth]
  weight_finite := rfl
  weight_not_neg := lt_irrefl 0

/-- The points inside the disc are strictly feasible. -/
theorem strictlyFeasibleAt_centering {x : Fin 2 → ℝ} (hx : x 0 ^ 2 + x 1 ^ 2 < 1) :
    centering.StrictlyFeasibleAt x :=
  strictlyFeasibleAt_iff.mpr
    (List.forall_mem_singleton.mpr ⟨_, (Quadratic.formulas_disc x).1, sub_neg.mpr hx⟩)

/-- The derivatives halfway between the center and the boundary. -/
theorem derivatives_centering :
    centering.toSmooth.HasGradient ![1 / 2, 0] ![4 / 3, 0] ∧
      centering.toSmooth.HasHessian ![1 / 2, 0] (Matrix.diagonal ![40 / 9, 8 / 3]) := by
  obtain ⟨hvalue, hgradient, hhessian⟩ := Quadratic.formulas_disc ![1 / 2, 0]
  have hu : ∀ c ∈ centering.constraints, c.HasValue ![1 / 2, 0] (-3 / 4) := by
    refine List.forall_mem_singleton.mpr ?_
    convert hvalue using 1
    norm_num
  have hd : ∀ c ∈ centering.constraints, c.HasGradient ![1 / 2, 0] ![1, 0] := by
    refine List.forall_mem_singleton.mpr ?_
    convert hgradient using 1
    norm_num
  have hK : ∀ c ∈ centering.constraints, c.HasHessian ![1 / 2, 0] ((2 : ℝ) • 1) :=
    List.forall_mem_singleton.mpr hhessian
  have hg := centering.hasGradient_of_ne_zero (t := 0) rfl hgradient hu (by norm_num) hd
  have hH := centering.hasHessian_of_ne_zero (t := 0) rfl hhessian hu (by norm_num) hd hK
  constructor
  · convert hg using 1
    ext i
    fin_cases i <;> simp [centering]
    norm_num
  · convert hH using 1
    ext i j
    fin_cases i <;> fin_cases j <;> simp [centering, curvature] <;> norm_num

end Barrier

/-- The law for a step of centering: there is one, and it descends. -/
theorem barrier_step_law_centering :
    Solver.unchecked.settings.validate = .ok () ∧
    Barrier.centering.StrictlyFeasibleAt ![1 / 2, 0] ∧
    ∃ g step, (Newton.direction Solver.unchecked none Barrier.centering.toSmooth
        (vec ![1 / 2, 0]).toArray).outcome = .ok (g, step) ∧ g.get ⬝ᵥ step.v.get < 0 := by
  have hx : Barrier.centering.StrictlyFeasibleAt ![1 / 2, 0] :=
    Barrier.strictlyFeasibleAt_centering (by norm_num)
  obtain ⟨-, hgradient, hhessian⟩ := Quadratic.formulas_disc ![1 / 2, 0]
  have hconvex : ((2 : ℝ) • 1 : Matrix (Fin 2) (Fin 2) ℝ).PosDef := Matrix.PosDef.one.smul two_pos
  obtain ⟨hexact, -, hdescent⟩ := barrier_step_law Solver.unchecked Solver.validate_unchecked
    two_pos Barrier.centering ![1 / 2, 0] hx (fun _ => (2 : ℝ) • ![1 / 2, 0]) (fun _ => (2 : ℝ) • 1)
    (List.forall_mem_cons.mpr ⟨hgradient, List.forall_mem_singleton.mpr hgradient⟩)
    (List.forall_mem_cons.mpr ⟨hhessian, List.forall_mem_singleton.mpr hhessian⟩)
    (fun _ _ => hconvex.posSemidef)
  have hflat : Barrier.NoFlatDirection Barrier.centering.weight ((2 : ℝ) • 1)
      Barrier.centering.constraints (fun _ => (2 : ℝ) • ![1 / 2, 0]) (fun _ => (2 : ℝ) • 1) := by
    intro h _ hconstraints
    by_contra hne
    exact (hconvex.dotProduct_mulVec_pos hne).ne' (List.forall_mem_singleton.mp hconstraints).2
  obtain ⟨⟨g, step⟩, hstep⟩ := (hexact rfl).1.mpr hflat
  obtain ⟨hg, hnegative⟩ := hdescent g step hstep
  have hgradient : g.get = ![4 / 3, 0] :=
    vec_injective (Except.ok.inj (hg.symm.trans Barrier.derivatives_centering.1))
  refine ⟨Solver.validate_unchecked, hx, g, step, hstep, hnegative fun hzero => ?_⟩
  have hfirst := congrFun (hgradient.symm.trans hzero) 0
  norm_num at hfirst

/-! ## Steps inside the domain -/

/-- **A parabola that stays below zero.** It starts at a negative value `u` with slope `a` and
curvature `k`, and the bound is that on the curvature of a barrier. -/
theorem parabola_neg {u a k s : ℝ} (hu : u < 0)
    (hbound : s ^ 2 * ((a / u) ^ 2 - k / u) < 1) : u + s * a + s ^ 2 / 2 * k < 0 := by
  have hne : u ≠ 0 := hu.ne
  -- relative to the distance from zero, the slope is `p` and the curvature `q`
  set p := s * a / -u with hp
  set q := s ^ 2 * k / -u with hq
  have hpq : p ^ 2 + q < 1 := by
    refine lt_of_eq_of_lt ?_ hbound
    rw [hp, hq, div_neg, div_neg]
    ring
  have hsum : p + q / 2 < 1 := by
    calc p + q / 2 < 1 - (p - 1) ^ 2 / 2 := by linarith
      _ ≤ 1 := sub_le_self 1 (by positivity)
  calc u + s * a + s ^ 2 / 2 * k = -u * (p + q / 2 - 1) := by
        rw [hp, hq]
        field_simp
        ring
    _ < 0 := mul_neg_of_pos_of_neg (neg_pos.mpr hu) (sub_neg.mpr hsum)

/-- **Newton steps with a small decrement stay inside the domain** of a barrier with an objective
whose Hessian is positive semidefinite and with convex quadratic constraints: a step that was solved
without regularization, with equations or without, may be taken at any length whose product with the
decrement is less than one. -/
theorem small_step_law (s : Solver ℝ) (hreg : s.settings.regularization = 0) (φ : Barrier ℝ n)
    (x : Fin n → ℝ) (hx : φ.StrictlyFeasibleAt x)
    (hobjective : ∃ K, φ.objective.HasHessian x K ∧ K.PosSemidef)
    (hconstraints : ∀ c ∈ φ.constraints,
      ∃ q : Quadratic ℝ n, q.a.toMatrix.PosSemidef ∧ c = q.toSmooth)
    (eq : Option (Equations ℝ)) (g : Vec ℝ n) (step : Step ℝ n)
    (hstep : (Newton.direction s eq φ.toSmooth (vec x).toArray).outcome = .ok (g, step)) (σ : ℝ)
    (hσ : σ ^ 2 * step.decrementSquared < 1) : φ.StrictlyFeasibleAt (x + σ • step.v.get) := by
  obtain ⟨K₀, hK₀, hconvex₀⟩ := hobjective
  have hterms : ∀ c ∈ φ.constraints, ∃ (A : Matrix (Fin n) (Fin n) ℝ) (b : Fin n → ℝ) (e : ℝ),
      A.PosSemidef ∧ ∀ z, c.HasValue z (Quadratic.valueOf A b e z) ∧
        c.HasGradient z (A *ᵥ z + b) ∧ c.HasHessian z A := by
    intro c hc
    obtain ⟨q, hq, rfl⟩ := hconstraints c hc
    exact ⟨_, _, _, hq, q.formulas_toSmooth⟩
  choose! A b e hA hterms using hterms
  have hneg : ∀ c ∈ φ.constraints, Quadratic.valueOf (A c) (b c) (e c) x < 0 :=
    (φ.isStrictlyFeasible_iff fun c hc => (hterms c hc x).1).mp hx
  obtain ⟨-, H, hH, hsolve⟩ := Newton.outcome_direction_eq_ok.mp hstep
  rw [← mat_toMatrix_real H] at hH
  obtain ⟨hsemidef, hcurvature⟩ := Barrier.curvature_le_of_hasHessian hK₀ hconvex₀
    (fun c hc => ⟨(hterms c hc x).1, hneg c hc⟩) (fun c hc => (hterms c hc x).2.1)
    (fun c hc => (hterms c hc x).2.2) hA hH
  rw [Newton.decrementSquared_of_outcome_stepAt hreg
    (Matrix.isHermitian_iff_isSymm.mp hsemidef.isHermitian) hsolve] at hσ
  refine (φ.isStrictlyFeasible_iff fun c hc => (hterms c hc _).1).mpr fun c hc => ?_
  rw [Quadratic.valueOf_add_smul (Matrix.isHermitian_iff_isSymm.mp (hA c hc).isHermitian)]
  refine parabola_neg (hneg c hc) (lt_of_le_of_lt ?_ hσ)
  exact mul_le_mul_of_nonneg_left (hcurvature c hc _) (sq_nonneg σ)

/-- The step of centering halfway between the center and the boundary. -/
theorem exists_direction_centering :
    ∃ g step, (Newton.direction Solver.unchecked none Barrier.centering.toSmooth
      (vec ![1 / 2, 0]).toArray).outcome = .ok (g, step) ∧ step.decrementSquared = 2 / 5 := by
  obtain ⟨hg, hH⟩ := Barrier.derivatives_centering
  have hposDef : (Matrix.diagonal ![40 / 9, 8 / 3] : Matrix (Fin 2) (Fin 2) ℝ).PosDef := by
    refine Matrix.posDef_diagonal_iff.mpr fun i => ?_
    fin_cases i <;> norm_num
  obtain ⟨-, v, hstep, hrefined⟩ | ⟨hne, -⟩ := Newton.outcome_direction_none_cases
    Solver.validate_unchecked two_pos hg hH (Matrix.isSymm_diagonal _)
  · refine ⟨_, _, hstep, ?_⟩
    have hfirst := congrFun hrefined.mulVec_eq 0
    rw [Matrix.mulVec_diagonal] at hfirst
    have hfirst : 40 / 9 * v.get 0 = -(4 / 3) := hfirst
    show -Vec.dot _ _ = _
    rw [Vec.dot_eq, get_vec_real, dotProduct, Fin.sum_univ_two]
    show -(4 / 3 * v.get 0 + 0 * v.get 1) = 2 / 5
    linarith
  · exact absurd (hposDef.add_posSemidef (Matrix.PosSemidef.one.smul le_rfl)) hne

/-- The law for a step of centering that is taken at more than its length. -/
theorem small_step_law_centering :
    Barrier.centering.StrictlyFeasibleAt ![1 / 2, 0] ∧
    ∃ g step, (Newton.direction Solver.unchecked none Barrier.centering.toSmooth
        (vec ![1 / 2, 0]).toArray).outcome = .ok (g, step) ∧ step.decrementSquared = 2 / 5 ∧
      Barrier.centering.StrictlyFeasibleAt (![1 / 2, 0] + (3 / 2 : ℝ) • step.v.get) := by
  have hx : Barrier.centering.StrictlyFeasibleAt ![1 / 2, 0] :=
    Barrier.strictlyFeasibleAt_centering (by norm_num)
  have hconvex : ((2 : ℝ) • 1 : Matrix (Fin 2) (Fin 2) ℝ).PosSemidef :=
    (Matrix.PosDef.one.smul two_pos).posSemidef
  obtain ⟨g, step, hstep, hdecrement⟩ := exists_direction_centering
  refine ⟨hx, g, step, hstep, hdecrement, ?_⟩
  refine small_step_law Solver.unchecked rfl Barrier.centering ![1 / 2, 0] hx
    ⟨_, (Quadratic.formulas_disc _).2.2, hconvex⟩ ?_ none g step hstep (3 / 2) ?_
  · refine List.forall_mem_singleton.mpr ⟨Quadratic.disc, ?_, rfl⟩
    exact (toMatrix_mat_real _).symm ▸ hconvex
  · rw [hdecrement]
    norm_num

end InteriorPoint

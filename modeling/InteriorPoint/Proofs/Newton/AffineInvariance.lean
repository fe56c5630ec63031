import InteriorPoint.Proofs.Kkt.ExactSteps
import InteriorPoint.Proofs.Newton.BarrierStep

/-!
# Newton steps under a change of variables

Substituting `T·y + d` for the variables of a symmetric quadratic function gives one again
(`SymmetricQuadratic.substitute`). Its value at `y` is the value at `x = T·y + d`, its gradient is
`Tᵀ·g` and its Hessian `Tᵀ·K·T`, for the gradient `g` and the Hessian `K` at `x`. The formulas of a
barrier carry that over from its components, for any number of constraints, because they are linear
in the Hessians and in the rank-one terms, and divide by values only, which stay the same.

A step without equations and without regularization is the solution of `K·v = −g`, found exactly if
`K` is positive definite. Positive definiteness is kept by the congruence with an invertible `T`,
and `Tᵀ·K·T·v' = −Tᵀ·g` says that `T·v'` is that solution. So a barrier and its substitution have
the same steps, written in their own variables (`affine_invariance_law`).
-/

open scoped Matrix

namespace InteriorPoint

open Exact

variable {n : ℕ}

/-! ## Congruence -/

section Congruence

variable (T K : Matrix (Fin n) (Fin n) ℝ)

/-- A congruence keeps a matrix symmetric. -/
theorem isSymm_congruence {K : Matrix (Fin n) (Fin n) ℝ} (hK : K.IsSymm) : (Tᵀ * K * T).IsSymm := by
  show (Tᵀ * K * T)ᵀ = _
  rw [Matrix.transpose_mul, Matrix.transpose_mul, Matrix.transpose_transpose, hK.eq,
    Matrix.mul_assoc]

theorem transpose_mulVec_dotProduct (u y : Fin n → ℝ) : (Tᵀ *ᵥ u) ⬝ᵥ y = u ⬝ᵥ T *ᵥ y := by
  rw [Matrix.mulVec_transpose, Matrix.dotProduct_mulVec]

theorem congruence_mulVec (y : Fin n → ℝ) :
    (Tᵀ * K * T) *ᵥ y = Tᵀ *ᵥ (K *ᵥ (T *ᵥ y)) := by
  rw [← Matrix.mulVec_mulVec, ← Matrix.mulVec_mulVec]

/-- Linear functions of the terms of a list add up to the function of their sum. -/
theorem sum_map_mulVec {ι : Type*} (l : List ι) (f : ι → Fin n → ℝ) :
    (l.map fun i => Tᵀ *ᵥ f i).sum = Tᵀ *ᵥ (l.map f).sum := by
  have h := map_list_sum (Matrix.mulVecLin Tᵀ) (l.map f)
  rw [List.map_map] at h
  exact h.symm

theorem sum_map_congruence {ι : Type*} (l : List ι) (f : ι → Matrix (Fin n) (Fin n) ℝ) :
    (l.map fun i => Tᵀ * f i * T).sum = Tᵀ * (l.map f).sum * T := by
  rw [List.sum_map_mul_right, List.sum_map_mul_left]

end Congruence

/-! ## Symmetric quadratic functions -/

/-- A quadratic function over the real numbers whose quadratic term is exactly symmetric. -/
structure SymmetricQuadratic (n : ℕ) extends Quadratic ℝ n where
  /-- The quadratic term is its own transpose. -/
  isSymm : a.toMatrix.IsSymm

namespace SymmetricQuadratic

variable (q : SymmetricQuadratic n) (T : Matrix (Fin n) (Fin n) ℝ) (d x y : Fin n → ℝ)

/-- The value at a point. -/
noncomputable def eval : ℝ := Quadratic.valueOf q.a.toMatrix q.b.get q.c x

/-- The gradient at a point. -/
noncomputable def slope : Fin n → ℝ := q.a.toMatrix *ᵥ x + q.b.get

/-- The quadratic function with given real terms. -/
noncomputable def ofTerms (hn : 0 < n) {A : Matrix (Fin n) (Fin n) ℝ} (hA : A.IsSymm)
    (b : Fin n → ℝ) (c : ℝ) : SymmetricQuadratic n where
  toQuadratic := Quadratic.ofTerms hn hA b c
  isSymm := (toMatrix_mat_real A).symm ▸ hA

/-- **The substitution of `T·y + d` for the variables.** -/
noncomputable def substitute : SymmetricQuadratic n :=
  ofTerms q.dim_pos (isSymm_congruence T q.isSymm) (Tᵀ *ᵥ (q.a.toMatrix *ᵥ d + q.b.get)) (q.eval d)

theorem toMatrix_substitute : (q.substitute T d).a.toMatrix = Tᵀ * q.a.toMatrix * T :=
  toMatrix_mat_real _

theorem get_substitute : (q.substitute T d).b.get = Tᵀ *ᵥ (q.a.toMatrix *ᵥ d + q.b.get) :=
  get_vec_real _

/-- **The value of a substitution** is the value at the substituted point. -/
theorem eval_substitute : (q.substitute T d).eval y = q.eval (T *ᵥ y + d) := by
  have hconstant : (q.substitute T d).c = q.eval d := rfl
  have hline := Quadratic.valueOf_add_smul q.isSymm q.b.get q.c d (T *ᵥ y) 1
  have hcurvature : y ⬝ᵥ (Tᵀ * q.a.toMatrix * T) *ᵥ y
      = (T *ᵥ y) ⬝ᵥ q.a.toMatrix *ᵥ (T *ᵥ y) := by
    rw [congruence_mulVec, dotProduct_comm, transpose_mulVec_dotProduct, dotProduct_comm]
  rw [one_smul, add_comm d] at hline
  rw [eval, eval, hline, toMatrix_substitute, get_substitute, hconstant, eval, Quadratic.valueOf,
    hcurvature, transpose_mulVec_dotProduct]
  ring

/-- **The gradient of a substitution.** -/
theorem slope_substitute : (q.substitute T d).slope y = Tᵀ *ᵥ q.slope (T *ᵥ y + d) := by
  rw [slope, slope, toMatrix_substitute, get_substitute, congruence_mulVec, ← Matrix.mulVec_add,
    Matrix.mulVec_add q.a.toMatrix, add_assoc]

/-- The evaluations at a real point. -/
theorem formulas : q.toSmooth.HasValue x (q.eval x) ∧ q.toSmooth.HasGradient x (q.slope x) ∧
    q.toSmooth.HasHessian x q.a.toMatrix :=
  q.formulas_toSmooth x

/-- Different terms make different functions: all three can be read off at the origin. -/
theorem toSmooth_injective :
    Function.Injective fun q : SymmetricQuadratic n => q.toSmooth := by
  intro q q' h
  have h : q.toSmooth = q'.toSmooth := h
  obtain ⟨hvalue, hgradient, hhessian⟩ := q.formulas 0
  obtain ⟨hvalue', hgradient', hhessian'⟩ := q'.formulas 0
  rw [h] at hvalue hgradient hhessian
  have ha := mat_injective (Except.ok.inj (hhessian.symm.trans hhessian'))
  have hb := vec_injective (Except.ok.inj (hgradient.symm.trans hgradient'))
  have hc : q.eval 0 = q'.eval 0 := Except.ok.inj (hvalue.symm.trans hvalue')
  rw [slope, slope, Matrix.mulVec_zero, Matrix.mulVec_zero, zero_add, zero_add] at hb
  rw [eval, eval, Quadratic.valueOf, Quadratic.valueOf, zero_dotProduct, zero_dotProduct,
    dotProduct_zero, dotProduct_zero, add_left_cancel_iff] at hc
  obtain ⟨⟨a, b, c, _, _⟩, _⟩ := q
  obtain ⟨⟨a', b', c', _, _⟩, _⟩ := q'
  obtain rfl : a = a' := by rw [← mat_toMatrix_real a, ← mat_toMatrix_real a', ha]
  obtain rfl : b = b' := by rw [← vec_get_real b, ← vec_get_real b', hb]
  obtain rfl : c = c' := hc
  rfl

end SymmetricQuadratic

/-! ## Barriers over symmetric quadratic functions -/

/-- A barrier over symmetric quadratic functions. -/
structure QuadraticBarrier (n : ℕ) where
  /-- The weight of the objective. -/
  weight : ℝ
  /-- The weight is not negative. -/
  weight_nonneg : 0 ≤ weight
  /-- The objective. -/
  objective : SymmetricQuadratic n
  /-- The constraints, in order. -/
  constraints : List (SymmetricQuadratic n)

namespace QuadraticBarrier

open Barrier (curvature)

variable (φ : QuadraticBarrier n) (T : Matrix (Fin n) (Fin n) ℝ) (d x y : Fin n → ℝ)

/-- The barrier itself. -/
noncomputable def toBarrier : Barrier ℝ n where
  weight := φ.weight
  objective := φ.objective.toSmooth
  constraints := φ.constraints.map fun q => q.toSmooth
  weight_finite := rfl
  weight_not_neg := φ.weight_nonneg.not_gt

/-- **The barrier of the substitutions**, at the same weight. -/
noncomputable def substitute : QuadraticBarrier n where
  weight := φ.weight
  weight_nonneg := φ.weight_nonneg
  objective := φ.objective.substitute T d
  constraints := φ.constraints.map fun q => q.substitute T d

/-- **Strict feasibility** is that all constraints are negative. -/
theorem strictlyFeasibleAt_toBarrier :
    φ.toBarrier.StrictlyFeasibleAt x ↔ ∀ q ∈ φ.constraints, q.eval x < 0 := by
  rw [Barrier.strictlyFeasibleAt_iff]
  refine List.forall_mem_map.trans (forall₂_congr fun q _ => ?_)
  constructor
  · rintro ⟨u, hu, hneg⟩
    obtain rfl : u = q.eval x := Except.ok.inj (hu.symm.trans (q.formulas x).1)
    exact hneg
  · exact fun h => ⟨_, (q.formulas x).1, h⟩

/-! ### Formulas -/

/-- The formula for the value. -/
noncomputable def eval : ℝ :=
  φ.weight * φ.objective.eval x - (φ.constraints.map fun q => Real.log (-q.eval x)).sum

/-- The formula for the gradient. -/
noncomputable def slope : Fin n → ℝ :=
  φ.weight • φ.objective.slope x
    + (φ.constraints.map fun q => (-1 / q.eval x) • q.slope x).sum

/-- The formula for the Hessian. -/
noncomputable def hessian : Matrix (Fin n) (Fin n) ℝ :=
  φ.weight • φ.objective.a.toMatrix
    + (φ.constraints.map fun q => curvature (q.eval x) (q.slope x) q.a.toMatrix).sum

variable {φ x} in
/-- **The evaluations** where all constraints are negative. -/
theorem formulas (h : ∀ q ∈ φ.constraints, q.eval x < 0) :
    φ.toBarrier.toSmooth.HasValue x (φ.eval x) ∧
      φ.toBarrier.toSmooth.HasGradient x (φ.slope x) ∧
      φ.toBarrier.toSmooth.HasHessian x (φ.hessian x) := by
  have hinhabited : Nonempty (SymmetricQuadratic n) := ⟨φ.objective⟩
  obtain ⟨r, hr⟩ := (SymmetricQuadratic.toSmooth_injective (n := n)).hasLeftInverse
  have hmap : ∀ {β : Type} (F : SymmetricQuadratic n → β),
      (φ.toBarrier.constraints.map fun c => F (r c)) = φ.constraints.map F := by
    intro β F
    show (φ.constraints.map _).map _ = _
    rw [List.map_map]
    exact List.map_congr_left fun q _ => congrArg F (hr q)
  have hformulas : ∀ c ∈ φ.toBarrier.constraints,
      c.HasValue x ((r c).eval x) ∧ c.HasGradient x ((r c).slope x) ∧
        c.HasHessian x (r c).a.toMatrix ∧ (r c).eval x < 0 := by
    refine List.forall_mem_map.mpr fun q hq => ?_
    rw [hr q]
    obtain ⟨hvalue, hgradient, hhessian⟩ := q.formulas x
    exact ⟨hvalue, hgradient, hhessian, h q hq⟩
  obtain ⟨hvalue₀, hgradient₀, hhessian₀⟩ := φ.objective.formulas x
  have hu := fun c hc => (hformulas c hc).1
  have hd := fun c hc => (hformulas c hc).2.1
  have hne := fun c hc => (hformulas c hc).2.2.2.ne
  refine ⟨?_, ?_, ?_⟩
  · rw [eval, ← hmap fun q => Real.log (-q.eval x)]
    exact Barrier.hasValue_of_feasible _ rfl hvalue₀ hu fun c hc => (hformulas c hc).2.2.2
  · rw [slope, ← hmap fun q => (-1 / q.eval x) • q.slope x]
    exact Barrier.hasGradient_of_ne_zero _ rfl hgradient₀ hu hne hd
  · rw [hessian, ← hmap fun q => curvature (q.eval x) (q.slope x) q.a.toMatrix]
    exact Barrier.hasHessian_of_ne_zero _ rfl hhessian₀ hu hne hd fun c hc => (hformulas c hc).2.2.1

/-- The Hessian is symmetric. -/
theorem isSymm_hessian : (φ.hessian x).IsSymm := by
  have hcurvature : ∀ q : SymmetricQuadratic n,
      (curvature (q.eval x) (q.slope x) q.a.toMatrix).IsSymm := by
    intro q
    refine Matrix.IsSymm.sub (Matrix.IsSymm.smul ?_ _) (q.isSymm.smul _)
    exact Matrix.transpose_vecMulVec _ _
  refine (φ.objective.isSymm.smul φ.weight).add ?_
  induction φ.constraints with
  | nil => exact Matrix.isSymm_zero
  | cons q qs ih =>
    rw [List.map_cons, List.sum_cons]
    exact (hcurvature q).add ih

/-! ### Substitution -/

/-- The rank-one term and the curvature term of a substituted constraint. -/
theorem curvature_congruence (u : ℝ) (e : Fin n → ℝ) (K : Matrix (Fin n) (Fin n) ℝ) :
    curvature u (Tᵀ *ᵥ e) (Tᵀ * K * T) = Tᵀ * curvature u e K * T := by
  have hrank : Matrix.vecMulVec (Tᵀ *ᵥ e) (Tᵀ *ᵥ e) = Tᵀ * Matrix.vecMulVec e e * T := by
    rw [Matrix.mul_vecMulVec, Matrix.vecMulVec_mul, Matrix.mulVec_transpose]
  unfold curvature
  rw [hrank, Matrix.mul_sub, Matrix.sub_mul, Matrix.mul_smul, Matrix.smul_mul, Matrix.mul_smul,
    Matrix.smul_mul]

/-- **The value of a substituted barrier** is the value at the substituted point. -/
theorem eval_substitute : (φ.substitute T d).eval y = φ.eval (T *ᵥ y + d) := by
  show φ.weight * (φ.objective.substitute T d).eval y - ((φ.constraints.map _).map _).sum = _
  rw [eval, List.map_map, φ.objective.eval_substitute]
  refine congrArg _ (congrArg List.sum (List.map_congr_left fun q _ => ?_))
  exact congrArg (fun u => Real.log (-u)) (q.eval_substitute T d y)

/-- **The gradient of a substituted barrier** is pulled back. -/
theorem slope_substitute : (φ.substitute T d).slope y = Tᵀ *ᵥ φ.slope (T *ᵥ y + d) := by
  show φ.weight • (φ.objective.substitute T d).slope y + ((φ.constraints.map _).map _).sum = _
  rw [slope, List.map_map, φ.objective.slope_substitute, Matrix.mulVec_add, Matrix.mulVec_smul,
    ← sum_map_mulVec]
  refine congrArg _ (congrArg List.sum (List.map_congr_left fun q _ => ?_))
  rw [Matrix.mulVec_smul, ← q.slope_substitute, ← q.eval_substitute]
  rfl

/-- **The Hessian of a substituted barrier** is congruent. -/
theorem hessian_substitute : (φ.substitute T d).hessian y = Tᵀ * φ.hessian (T *ᵥ y + d) * T := by
  show φ.weight • (φ.objective.substitute T d).a.toMatrix + ((φ.constraints.map _).map _).sum = _
  rw [hessian, List.map_map, φ.objective.toMatrix_substitute, Matrix.mul_add, Matrix.add_mul,
    Matrix.mul_smul, Matrix.smul_mul, ← sum_map_congruence]
  refine congrArg _ (congrArg List.sum (List.map_congr_left fun q _ => ?_))
  rw [← curvature_congruence, ← q.slope_substitute, ← q.eval_substitute,
    ← q.toMatrix_substitute T d]
  rfl

end QuadraticBarrier

/-! ## Steps -/

namespace Newton

variable {s : Solver ℝ} {g : Fin n → ℝ} {H : Matrix (Fin n) (Fin n) ℝ}

/-- **A congruent step** has the direction of the other one in its own variables, and the same
squared decrement. -/
theorem step_congruence (hreg : s.settings.regularization = 0) (hH : H.IsSymm)
    {T : Matrix (Fin n) (Fin n) ℝ} (hT : IsUnit T) {step step' : Step ℝ n}
    (hstep : (s.solveReduced (.ofMat (mat H)) (vec g)).outcome = .ok step)
    (hstep' : (s.solveReduced (.ofMat (mat (Tᵀ * H * T))) (vec (Tᵀ *ᵥ g))).outcome = .ok step') :
    step.v.get = T *ᵥ step'.v.get ∧ step.decrementSquared = step'.decrementSquared := by
  obtain ⟨hvalid, hn, -⟩ := Solver.outcome_solveReduced_eq_ok.mp hstep
  obtain ⟨hposDef, v, hv, rfl⟩ := (outcome_stepAt_none_eq_ok hvalid hreg hn hH).mp hstep
  obtain ⟨-, v', hv', rfl⟩ :=
    (outcome_stepAt_none_eq_ok hvalid hreg hn (isSymm_congruence T hH)).mp hstep'
  have hsame : v = T *ᵥ v' := by
    refine Matrix.mulVec_injective_of_isUnit hposDef.isUnit ?_
    refine Matrix.mulVec_injective_of_isUnit ((Matrix.isUnit_transpose T).mpr hT) ?_
    rw [← congruence_mulVec, hv', hv, Matrix.mulVec_neg]
  have hdecrement : -Vec.dot (vec g : Vec ℝ n) (vec v) = -Vec.dot (vec (Tᵀ *ᵥ g)) (vec v') := by
    rw [dot_vec, dot_vec, transpose_mulVec_dotProduct, hsame]
  refine ⟨?_, hdecrement⟩
  show (vec v : Vec ℝ n).get = T *ᵥ (vec v' : Vec ℝ n).get
  rw [get_vec_real, get_vec_real, hsame]

end Newton

/-- **The law of affine invariance.** At a strictly feasible point `T·y + d` of a barrier over
symmetric quadratic functions, and at `y` of the barrier whose functions have `T·y + d` substituted
for their variables: the values are the same; without regularization there is a step without
equations at both points or at none; and the direction at the one is `T` times the direction at the
other, with the same squared decrement. -/
theorem affine_invariance_law (s : Solver ℝ) (hreg : s.settings.regularization = 0)
    (φ : QuadraticBarrier n) (T : Matrix (Fin n) (Fin n) ℝ) (hT : IsUnit T) (d x y : Fin n → ℝ)
    (hxy : x = T *ᵥ y + d) (hx : φ.toBarrier.StrictlyFeasibleAt x) :
    ∃ (v : ℝ) (g g' : Fin n → ℝ) (H H' : Matrix (Fin n) (Fin n) ℝ),
      φ.toBarrier.toSmooth.HasValue x v ∧
      φ.toBarrier.toSmooth.HasGradient x g ∧ φ.toBarrier.toSmooth.HasHessian x H ∧
      (φ.substitute T d).toBarrier.toSmooth.HasValue y v ∧
      (φ.substitute T d).toBarrier.toSmooth.HasGradient y g' ∧
      (φ.substitute T d).toBarrier.toSmooth.HasHessian y H' ∧
      ((∃ step', (s.solveReduced (.ofMat (mat H')) (vec g')).outcome = .ok step') ↔
        ∃ step, (s.solveReduced (.ofMat (mat H)) (vec g)).outcome = .ok step) ∧
      ∀ step step', (s.solveReduced (.ofMat (mat H)) (vec g)).outcome = .ok step →
        (s.solveReduced (.ofMat (mat H')) (vec g')).outcome = .ok step' →
        step.v.get = T *ᵥ step'.v.get ∧ step.decrementSquared = step'.decrementSquared := by
  have hneg := (φ.strictlyFeasibleAt_toBarrier x).mp hx
  have hneg' : ∀ q ∈ (φ.substitute T d).constraints, q.eval y < 0 := by
    refine List.forall_mem_map.mpr fun q hq => ?_
    rw [q.eval_substitute, ← hxy]
    exact hneg q hq
  obtain ⟨hvalue, hgradient, hhessian⟩ := QuadraticBarrier.formulas hneg
  obtain ⟨hvalue', hgradient', hhessian'⟩ := QuadraticBarrier.formulas hneg'
  rw [φ.eval_substitute, ← hxy] at hvalue'
  rw [φ.slope_substitute, ← hxy] at hgradient'
  rw [φ.hessian_substitute, ← hxy] at hhessian'
  refine ⟨_, _, _, _, _, hvalue, hgradient, hhessian, hvalue', hgradient', hhessian', ?_, ?_⟩
  · have hn := φ.objective.dim_pos.ne'
    refine (Newton.exists_outcome_stepAt_none_iff hreg hn
      (isSymm_congruence T (φ.isSymm_hessian x))).trans (Iff.trans ?_
        (Newton.exists_outcome_stepAt_none_iff hreg hn (φ.isSymm_hessian x)).symm)
    rw [← Matrix.conjTranspose_eq_transpose_of_trivial T]
    exact and_congr_right fun _ => Matrix.IsUnit.posDef_star_left_conjugate_iff hT
  · exact fun step step' hstep hstep' =>
      Newton.step_congruence hreg (φ.isSymm_hessian x) hT hstep hstep'

/-- The distance to the boundary of the unit disc. -/
noncomputable def SymmetricQuadratic.disc : SymmetricQuadratic 2 where
  toQuadratic := Quadratic.disc
  isSymm := (toMatrix_mat_real _).symm ▸ Matrix.isSymm_one.smul (2 : ℝ)

/-- Centering as a barrier over symmetric quadratic functions. -/
noncomputable def QuadraticBarrier.centering : QuadraticBarrier 2 where
  weight := 0
  weight_nonneg := le_rfl
  objective := .disc
  constraints := [.disc]

/-- The law for a step of centering whose variables are sheared, stretched and shifted. -/
theorem affine_invariance_law_centering :
    Solver.unchecked.settings.regularization = 0 ∧
    IsUnit (!![1, 1; 0, 2] : Matrix (Fin 2) (Fin 2) ℝ) ∧
    QuadraticBarrier.centering.toBarrier.StrictlyFeasibleAt ![1 / 2, 0] ∧
    ∃ (g' : Fin 2 → ℝ) (H' : Matrix (Fin 2) (Fin 2) ℝ) (step' : Step ℝ 2),
      (QuadraticBarrier.centering.substitute !![1, 1; 0, 2] ![0, 1]).toBarrier.toSmooth.HasGradient
        ![1, -1 / 2] g' ∧
      (QuadraticBarrier.centering.substitute !![1, 1; 0, 2] ![0, 1]).toBarrier.toSmooth.HasHessian
        ![1, -1 / 2] H' ∧
      (Solver.unchecked.solveReduced (.ofMat (mat H')) (vec g')).outcome = .ok step' ∧
      step'.decrementSquared = 2 / 5 := by
  have hunit : IsUnit (!![1, 1; 0, 2] : Matrix (Fin 2) (Fin 2) ℝ) := by
    rw [Matrix.isUnit_iff_isUnit_det, Matrix.det_fin_two_of]
    norm_num
  have hpoint : (![1 / 2, 0] : Fin 2 → ℝ) = !![1, 1; 0, 2] *ᵥ ![1, -1 / 2] + ![0, 1] := by
    ext i
    fin_cases i <;> norm_num [Matrix.mulVec, dotProduct, Fin.sum_univ_two]
  have hx : QuadraticBarrier.centering.toBarrier.StrictlyFeasibleAt ![1 / 2, 0] :=
    Barrier.strictlyFeasibleAt_centering (by norm_num)
  obtain ⟨g₀, step, hdirection, hdecrement⟩ := exists_direction_centering
  obtain ⟨hg₀, H₀, hH₀, hstep⟩ := Newton.outcome_direction_eq_ok.mp hdirection
  obtain ⟨v, g, g', H, H', -, hg, hH, -, hg', hH', hiff, hsame⟩ := affine_invariance_law
    Solver.unchecked rfl QuadraticBarrier.centering _ hunit ![0, 1] ![1 / 2, 0] ![1, -1 / 2]
    hpoint hx
  obtain rfl := Except.ok.inj (hg₀.symm.trans hg)
  obtain rfl := Except.ok.inj (hH₀.symm.trans hH)
  obtain ⟨step', hstep'⟩ := hiff.mpr ⟨step, hstep⟩
  refine ⟨rfl, hunit, hx, g', H', step', hg', hH', hstep', ?_⟩
  rw [← (hsame step step' hstep hstep').2, hdecrement]

end InteriorPoint

import InteriorPoint.Proofs.Newton.BarrierSearch
import InteriorPoint.Proofs.Newton.Run

/-!
# Feasibility along a run

A line search takes its last trial point as it is, if the floor of the step length ends it. If this
point lies outside the domain of a barrier, the step overshoots (`Newton.Overshoots`). So a damped
Newton iteration from a strictly feasible point stays strictly feasible exactly if no step on the
way overshoots (`feasible_run_law`).

On a convex barrier such a step is long: its length in the norm of the Hessian, which without
regularization is its decrement, is at least `2³⁴`, the quotient of one by the last step length.
-/

open scoped Matrix

namespace InteriorPoint

open Exact Scalar
open LineSearch (lastTrial)

variable {α : Type} [Scalar α] [Exact α] {n : ℕ}

/-! ## Rounds and runs -/

namespace Newton

/-- **A step that overshoots**: from a strictly feasible point `x` along a direction `v`, the line
search is ended by the floor, and the point that it takes is not strictly feasible. -/
structure Overshoots (s : Solver α) (eq : Option (Equations α)) (φ : Barrier α n) (tolerance : α)
    (x v : Fin n → ℝ) : Prop where
  /-- The step begins inside the domain. -/
  inside : φ.StrictlyFeasibleAt x
  /-- It is the step of a round, and the floor ends its line search. -/
  step : ∃ g step, (direction s eq φ.toSmooth (vec x).toArray).outcome = .ok (g, step) ∧
    ¬ step.decrementSquared / two ≤ tolerance ∧ step.v = vec v ∧
    (({} : LineSearch α).stepLength φ.toSmooth (vec x) g step.v).outcome
      = .ok (real ((1 / 2) ^ lastTrial))
  /-- It ends outside the domain. -/
  outside : ¬ φ.StrictlyFeasibleAt (x + ((1 : ℝ) / 2) ^ lastTrial • v)

variable {s : Solver α} {eq : Option (Equations α)} {φ : Barrier α n} {tolerance : α}
  {x v : Fin n → ℝ}

/-- A step that overshoots is taken. -/
theorem Overshoots.round (h : Overshoots s eq φ tolerance x v) :
    Round s eq φ.toSmooth tolerance (vec x).toArray
      (vec (x + ((1 : ℝ) / 2) ^ lastTrial • v) : Vec α n).toArray := by
  obtain ⟨g, step, hdirection, hlarge, hv, hlength⟩ := h.step
  refine round_iff.mpr ⟨g, step, _, hdirection, hlarge, hlength, ?_⟩
  rw [hv, addScaled_vec, add_comm]

variable (hφ : ∀ f ∈ φ.objective :: φ.constraints, f.IsFiniteQuadratic)

include hφ

/-- **A step of a convex barrier that overshoots is long**: its length in the norm of the Hessian is
at least `2³⁴`. -/
theorem Overshoots.le_curvature
    (hconvex : ∀ f ∈ φ.objective :: φ.constraints, ∀ z K, f.HasHessian z K → K.PosSemidef)
    (h : Overshoots s eq φ tolerance x v) :
    ∃ H, φ.toSmooth.HasHessian x H ∧ H.PosSemidef ∧ (2 ^ lastTrial) ^ 2 ≤ v ⬝ᵥ H *ᵥ v := by
  obtain ⟨-, H, -, hH⟩ := Barrier.exists_hasGradient_hasHessian hφ h.inside
  obtain ⟨hsemidef, hreach⟩ :=
    Barrier.posSemidef_and_strictlyFeasibleAt_add_smul hφ hconvex h.inside hH
  refine ⟨H, hH, hsemidef, ?_⟩
  by_contra hshort
  refine h.outside (hreach v _ ?_)
  calc (((1 : ℝ) / 2) ^ lastTrial) ^ 2 * (v ⬝ᵥ H *ᵥ v)
      < (((1 : ℝ) / 2) ^ lastTrial) ^ 2 * (2 ^ lastTrial) ^ 2 :=
        mul_lt_mul_of_pos_left (not_le.mp hshort) (by positivity)
    _ = 1 := by rw [← mul_pow, ← mul_pow, one_div_mul_cancel two_ne_zero, one_pow, one_pow]

/-- Without regularization, this length is the decrement of the step. -/
theorem Overshoots.le_decrementSquared (heq : ∀ e ∈ eq, e.Finite)
    (hreg : s.settings.regularization = 0)
    (hconvex : ∀ f ∈ φ.objective :: φ.constraints, ∀ z K, f.HasHessian z K → K.PosSemidef)
    (h : Overshoots s eq φ tolerance x v) :
    ∃ g step, (direction s eq φ.toSmooth (vec x).toArray).outcome = .ok (g, step) ∧
      real ((2 ^ lastTrial) ^ 2) ≤ step.decrementSquared := by
  obtain ⟨H, hH, hsemidef, hlong⟩ := h.le_curvature hφ hconvex
  obtain ⟨g', -, hg', -⟩ := Barrier.exists_hasGradient_hasHessian hφ h.inside
  obtain ⟨g, step, hdirection, -, hv, -⟩ := h.step
  obtain ⟨rfl, hstep⟩ := (outcome_direction_eq_ok_iff hg' hH).mp hdirection
  obtain ⟨v', hv', hdecrement⟩ := exists_decrementSquared_of_outcome_stepAt heq hreg
    (Matrix.isHermitian_iff_isSymm.mp hsemidef.isHermitian) hstep
  obtain rfl := vec_injective (hv'.symm.trans hv)
  refine ⟨_, step, hdirection, ?_⟩
  rw [hdecrement, real_le_real]
  exact hlong

variable [InfinityRules α]

/-- **One round keeps strict feasibility**, unless its step overshoots. -/
theorem Round.exists_strictlyFeasibleAt (heq : ∀ e ∈ eq, e.Finite) (hx : φ.StrictlyFeasibleAt x)
    (hno : ∀ v, ¬ Overshoots s eq φ tolerance x v) {y : Array α}
    (hround : Round s eq φ.toSmooth tolerance (vec x).toArray y) :
    ∃ z, y = (vec z).toArray ∧ φ.StrictlyFeasibleAt z := by
  obtain ⟨g, step, σ, hdirection, hlarge, hlength, rfl⟩ := round_iff.mp hround
  obtain ⟨g', H, hg', hH⟩ := Barrier.exists_hasGradient_hasHessian hφ hx
  obtain ⟨rfl, hstep⟩ := (outcome_direction_eq_ok_iff hg' hH).mp hdirection
  rw [← liftVec_vec, ← liftMat_mat] at hstep
  obtain ⟨v, hv⟩ := exists_liftVec_of_outcome_stepAt heq hstep
  have hv : step.v = vec v.get := hv
  obtain ⟨k, rfl, hinside | rfl⟩ :=
    LineSearch.exists_of_outcome_stepLength hφ hx (hv ▸ hlength)
  · refine ⟨_, ?_, hinside⟩
    rw [hv, addScaled_vec, add_comm]
  · refine ⟨x + ((1 : ℝ) / 2) ^ lastTrial • v.get, ?_, ?_⟩
    · rw [hv, addScaled_vec, add_comm]
    · by_contra hout
      exact hno v.get ⟨hx, ⟨_, step, hdirection, hlarge, hv, hlength⟩, hout⟩

/-- **A run keeps strict feasibility**, unless a step on the way overshoots. -/
theorem Run.exists_strictlyFeasibleAt (heq : ∀ e ∈ eq, e.Finite) (hx : φ.StrictlyFeasibleAt x)
    (hno : ∀ k z v, Run s eq φ.toSmooth tolerance k (vec x).toArray (vec z).toArray →
      ¬ Overshoots s eq φ tolerance z v) {k : ℕ} {y : Array α}
    (hrun : Run s eq φ.toSmooth tolerance k (vec x).toArray y) :
    ∃ z, y = (vec z).toArray ∧ φ.StrictlyFeasibleAt z := by
  refine hrun.preserves (P := fun y => ∃ z, y = (vec z).toArray ∧ φ.StrictlyFeasibleAt z)
    ⟨x, rfl, hx⟩ ?_
  rintro k _ z hrun ⟨w, rfl, hw⟩ hround
  exact hround.exists_strictlyFeasibleAt hφ heq hw fun v => hno k w v hrun

end Newton

open Newton

/-- **The law of feasibility along a run.** The damped Newton iteration on a barrier of quadratic
functions, from a strictly feasible point, ends at a strictly feasible point for every limit exactly
if no step on the way overshoots. On a convex barrier, a step that overshoots has at least the
length `2³⁴` in the norm of the Hessian, and without regularization this is its decrement. -/
theorem feasible_run_law [InfinityRules α] (s : Solver α) (eq : Option (Equations α))
    (heq : ∀ e ∈ eq, e.Finite) (φ : Barrier α n)
    (hφ : ∀ f ∈ φ.objective :: φ.constraints, f.IsFiniteQuadratic) (tolerance : α)
    (x : Fin n → ℝ) (hx : φ.StrictlyFeasibleAt x) :
    ((∀ limit, ∃ finish, (minimize s eq φ.toSmooth tolerance limit (vec x).toArray).outcome
        = .ok finish ∧ (φ.isStrictlyFeasible finish.point).outcome = .ok true) ↔
      ∀ k z v, Run s eq φ.toSmooth tolerance k (vec x).toArray (vec z).toArray →
        ¬ Overshoots s eq φ tolerance z v) ∧
    ((∀ f ∈ φ.objective :: φ.constraints, ∀ z K, f.HasHessian z K → K.PosSemidef) →
      ∀ z v, Overshoots s eq φ tolerance z v →
        (∃ H, φ.toSmooth.HasHessian z H ∧ H.PosSemidef ∧ (2 ^ lastTrial) ^ 2 ≤ v ⬝ᵥ H *ᵥ v) ∧
        (s.settings.regularization = 0 →
          ∃ g step, (direction s eq φ.toSmooth (vec z).toArray).outcome = .ok (g, step) ∧
            real ((2 ^ lastTrial) ^ 2) ≤ step.decrementSquared)) := by
  refine ⟨⟨fun hfeasible k z v hrun hover => ?_, fun hno limit => ?_⟩,
    fun hconvex z v hover => ⟨hover.le_curvature hφ hconvex,
      fun hreg => hover.le_decrementSquared hφ heq hreg hconvex⟩⟩
  · obtain ⟨finish, hfinish, hpoint⟩ := (hrun.snoc hover.round).exists_finish
    obtain ⟨finish', hfinish', hinside⟩ := hfeasible (k + 1)
    obtain rfl := Except.ok.inj (hfinish.symm.trans hfinish')
    rw [hpoint] at hinside
    exact hover.outside hinside
  · obtain ⟨finish, k, hfinish, -, hrun⟩ :=
      exists_finish s eq φ.toSmooth tolerance limit (vec x).toArray
    obtain ⟨z, hz, hinside⟩ := hrun.exists_strictlyFeasibleAt hφ heq hx hno
    refine ⟨finish, hfinish, ?_⟩
    rw [hz]
    exact hinside

/-! ### Steps of the barriers of a half-line -/

namespace Barrier

variable {t b : ℝ} {h : 0 ≤ t} {x : Fin 1 → ℝ}

theorem isFiniteQuadratic_belowOne :
    ∀ f ∈ (belowOne t b h).objective :: (belowOne t b h).constraints, f.IsFiniteQuadratic :=
  List.forall_mem_cons.mpr ⟨Quadratic.isFiniteQuadratic_affine b 0,
    List.forall_mem_singleton.mpr (Quadratic.isFiniteQuadratic_affine 1 (-1))⟩

theorem hasValue_constraint_belowOne (x : Fin 1 → ℝ) :
    ∀ c ∈ (belowOne t b h).constraints, c.HasValue x (x 0 - 1) := by
  refine List.forall_mem_singleton.mpr ?_
  convert (Quadratic.formulas_affine 1 (-1) x).1 using 1
  ring

/-- The points below one are strictly feasible, and no others. -/
theorem outcome_isStrictlyFeasible_belowOne (x : Fin 1 → ℝ) :
    ((belowOne t b h).isStrictlyFeasible (vec x).toArray).outcome = .ok (decide (x 0 < 1)) := by
  rw [(belowOne t b h).outcome_isStrictlyFeasible (hasValue_constraint_belowOne x)]
  refine congrArg Except.ok (decide_eq_decide.mpr ?_)
  exact List.forall_mem_singleton.trans sub_neg

theorem strictlyFeasibleAt_belowOne : (belowOne t b h).StrictlyFeasibleAt x ↔ x 0 < 1 := by
  rw [StrictlyFeasibleAt, outcome_isStrictlyFeasible_belowOne, Except.ok.injEq, decide_eq_true_iff]

/-- The derivatives at a point below one. -/
theorem derivatives_belowOne (hx : x 0 < 1) :
    (belowOne t b h).toSmooth.HasGradient x ![t * b + 1 / (1 - x 0)] ∧
      (belowOne t b h).toSmooth.HasHessian x ((1 / (1 - x 0) ^ 2 : ℝ) • 1) := by
  obtain ⟨-, hgradient₀, hhessian₀⟩ := Quadratic.formulas_affine (α := Extended) b 0 x
  obtain ⟨-, hgradient, hhessian⟩ := Quadratic.formulas_affine (α := Extended) 1 (-1) x
  have hu := hasValue_constraint_belowOne (t := t) (b := b) (h := h) x
  have hne : ∀ c ∈ (belowOne t b h).constraints, x 0 - 1 ≠ 0 := fun c _ => (sub_neg.mpr hx).ne
  have hd : ∀ c ∈ (belowOne t b h).constraints, c.HasGradient x ![1] :=
    List.forall_mem_singleton.mpr hgradient
  have hK : ∀ c ∈ (belowOne t b h).constraints, c.HasHessian x 0 :=
    List.forall_mem_singleton.mpr hhessian
  have hsub : -1 / (x 0 - 1) = 1 / (1 - x 0) := by rw [neg_div, ← div_neg, neg_sub]
  constructor
  · convert (belowOne t b h).hasGradient_of_ne_zero (t := t) rfl hgradient₀ hu hne hd using 1
    ext i
    fin_cases i
    show t * b + 1 / (1 - x 0) = t * b + (-1 / (x 0 - 1) * 1 + 0)
    rw [hsub, mul_one, add_zero]
  · convert (belowOne t b h).hasHessian_of_ne_zero (t := t) rfl hhessian₀ hu hne hd hK using 1
    ext i j
    fin_cases i
    fin_cases j
    show 1 / (1 - x 0) ^ 2 * 1
      = t * 0 + (1 / ((x 0 - 1) * (x 0 - 1)) * (1 * 1) - 1 / (x 0 - 1) * 0 + 0)
    ring

/-- **The step at a point below one.** -/
theorem outcome_direction_belowOne (hx : x 0 < 1) {γ v : ℝ} (hγ : γ = t * b + 1 / (1 - x 0))
    (hv : v = -γ * (1 - x 0) ^ 2) :
    (Newton.direction Solver.standard none (belowOne t b h).toSmooth (vec x).toArray).outcome
      = .ok (vec ![γ], Solver.reducedStep (vec ![γ]) (vec ![v])) := by
  obtain ⟨hg, hH⟩ := derivatives_belowOne (t := t) (b := b) (h := h) hx
  have hpos : 0 < (1 - x 0) ^ 2 := pow_pos (sub_pos.mpr hx) 2
  have hsolve : ((1 / (1 - x 0) ^ 2 : ℝ) • (1 : Matrix (Fin 1) (Fin 1) ℝ)) *ᵥ ![v] = -![γ] := by
    rw [Matrix.smul_mulVec, Matrix.one_mulVec, hv]
    ext i
    fin_cases i
    show 1 / (1 - x 0) ^ 2 * (-γ * (1 - x 0) ^ 2) = -γ
    rw [mul_comm, mul_assoc, mul_one_div_cancel hpos.ne', mul_one]
  have hstep := (Newton.outcome_stepAt_none_eq_ok (s := (Solver.standard : Solver Extended))
    Settings.validate_default rfl one_ne_zero (Matrix.isSymm_one.smul (1 / (1 - x 0) ^ 2))).mpr
      ⟨Matrix.PosDef.one.smul (one_div_pos.mpr hpos), ![v], hsolve, rfl⟩
  rw [← hγ] at hg
  rw [Newton.outcome_direction hg hH, hstep]
  rfl

end Barrier

open Barrier

/-- The law for the barrier of the half-line, whose objective leads away from the boundary. -/
theorem feasible_run_law_halfLine :
    halfLine.StrictlyFeasibleAt ![0] ∧
    ∀ limit, ∃ finish, (minimize Solver.standard none halfLine.toSmooth (tenth 10) limit
        (vec ![0]).toArray).outcome = .ok finish ∧
      (halfLine.isStrictlyFeasible finish.point).outcome = .ok true := by
  have hx : halfLine.StrictlyFeasibleAt ![0] :=
    strictlyFeasibleAt_belowOne.mpr one_pos
  refine ⟨hx, (feasible_run_law Solver.standard none (fun _ he => nomatch he) _
    isFiniteQuadratic_belowOne (tenth 10) _ hx).1.mpr fun k z v _ hover => ?_⟩
  have hz := strictlyFeasibleAt_belowOne.mp hover.inside
  have hpos : 0 < 1 - z 0 := sub_pos.mpr hz
  obtain ⟨g, step, hdirection, -, hv, -⟩ := hover.step
  rw [outcome_direction_belowOne hz rfl rfl] at hdirection
  obtain ⟨-, rfl⟩ := Prod.mk.inj (Except.ok.inj hdirection)
  obtain rfl := vec_injective hv
  refine hover.outside (strictlyFeasibleAt_belowOne.mpr ?_)
  show z 0 + (1 / 2) ^ 34 * (-(1 * 1 + 1 / (1 - z 0)) * (1 - z 0) ^ 2) < 1
  have hstep : 0 ≤ (1 * 1 + 1 / (1 - z 0)) * (1 - z 0) ^ 2 := by positivity
  linarith

namespace Barrier

/-- The barrier of the half-line with a large weight of an objective that leads to the boundary. -/
noncomputable def steep : Barrier Extended 1 := belowOne (2 ^ 40) (-1) (by positivity)

/-- **The first step overshoots**: all its fractions down to the floor lead out of the domain. -/
theorem overshoots_steep :
    Overshoots Solver.standard none steep (tenth 10) ![0] ![(2 : ℝ) ^ 40 - 1] := by
  have hx : steep.StrictlyFeasibleAt ![0] := strictlyFeasibleAt_belowOne.mpr one_pos
  have hout : ∀ k ≤ lastTrial,
      ¬ steep.StrictlyFeasibleAt (![0] + ((1 : ℝ) / 2) ^ k • ![(2 : ℝ) ^ 40 - 1]) := by
    intro k hk
    have hpow : ((1 : ℝ) / 2) ^ lastTrial ≤ (1 / 2) ^ k :=
      pow_le_pow_of_le_one (by norm_num) (by norm_num) hk
    refine strictlyFeasibleAt_belowOne.not.mpr (not_lt.mpr ?_)
    calc (1 : ℝ) ≤ (1 / 2) ^ lastTrial * (2 ^ 40 - 1) := by norm_num [lastTrial]
      _ ≤ (1 / 2) ^ k * (2 ^ 40 - 1) := mul_le_mul_of_nonneg_right hpow (by norm_num)
      _ = 0 + (1 / 2) ^ k * (2 ^ 40 - 1) := (zero_add _).symm
  have hdirection : (direction Solver.standard none steep.toSmooth (vec ![0]).toArray).outcome
      = .ok (vec ![1 - (2 : ℝ) ^ 40],
        Solver.reducedStep (vec ![1 - (2 : ℝ) ^ 40]) (vec ![(2 : ℝ) ^ 40 - 1])) :=
    outcome_direction_belowOne one_pos (by norm_num) (by norm_num)
  refine ⟨hx, ⟨_, _, hdirection, ?_, rfl, ?_⟩, hout lastTrial le_rfl⟩
  · have htwo : (two : Extended) = real 2 := rfl
    have hdecrement : -Vec.dot (vec ![1 - (2 : ℝ) ^ 40]) (vec ![(2 : ℝ) ^ 40 - 1]) / two
        = (real ((2 ^ 40 - 1) ^ 2 / 2) : Extended) := by
      rw [dot_vec, neg_real, htwo, div_real _ two_ne_zero, dotProduct, Fin.sum_univ_one]
      refine congrArg (fun d : ℝ => real (d / 2)) ?_
      show -((1 - 2 ^ 40) * (2 ^ 40 - 1)) = ((2 : ℝ) ^ 40 - 1) ^ 2
      ring
    show ¬ -Vec.dot _ _ / two ≤ tenth 10
    rw [hdecrement, tenth_real, real_le_real]
    norm_num
  · exact LineSearch.outcome_stepLength_of_outside isFiniteQuadratic_belowOne hx hout

end Barrier

/-- **The floor of the line search lets an iteration leave the domain**: the first iteration on the
steep barrier ends at a point that is not strictly feasible. -/
theorem feasible_run_overshoots :
    steep.StrictlyFeasibleAt ![0] ∧
    ∃ finish, (minimize Solver.standard none steep.toSmooth (tenth 10) 1 (vec ![0]).toArray).outcome
        = .ok finish ∧
      finish.point = (vec ![((2 : ℝ) ^ 40 - 1) / 2 ^ 34] : Vec Extended 1).toArray ∧
      (steep.isStrictlyFeasible finish.point).outcome = .ok false := by
  obtain ⟨finish, hfinish, hpoint⟩ := (Run.round overshoots_steep.round (.stay _)).exists_finish
  have hend : ![0] + ((1 : ℝ) / 2) ^ lastTrial • ![(2 : ℝ) ^ 40 - 1]
      = ![((2 : ℝ) ^ 40 - 1) / 2 ^ 34] := by
    ext i
    fin_cases i
    show 0 + (1 / 2) ^ 34 * (2 ^ 40 - 1) = ((2 ^ 40 - 1) / 2 ^ 34 : ℝ)
    norm_num
  rw [hend] at hpoint
  refine ⟨overshoots_steep.inside, finish, hfinish, hpoint, ?_⟩
  rw [hpoint, steep, outcome_isStrictlyFeasible_belowOne]
  refine congrArg Except.ok (decide_eq_false ?_)
  show ¬ ((2 ^ 40 - 1) / 2 ^ 34 : ℝ) < 1
  norm_num

end InteriorPoint

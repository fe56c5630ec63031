import InteriorPoint.Proofs.Function.RealBarrier
import InteriorPoint.Proofs.Kkt.ExactSteps
import InteriorPoint.Proofs.Newton.BarrierStep

/-!
# The line search of a barrier

A barrier of quadratic functions with finite terms is real at its strictly feasible points and
infinite at all others. So its line search turns down every trial point outside the domain as long
as the step length is above the floor, and from a strictly feasible point it finds a step length
that leads to a strictly feasible point, or `(1/2)³⁴`, the first one that is not above the floor
(`LineSearch.exists_of_outcome_stepLength`).

For a convex barrier the bound on the curvature says how far the domain reaches: along every
direction it contains what is shorter than one in the norm of the Hessian
(`Barrier.posSemidef_and_strictlyFeasibleAt_add_smul`).
-/

open scoped Matrix

namespace InteriorPoint

open Exact Scalar

variable {α : Type} [Scalar α] [Exact α] {n : ℕ}

/-! ## Quadratic functions with finite terms -/

/-- A quadratic function with finite terms. -/
structure Quadratic.Finite (q : Quadratic α n) : Prop where
  /-- The quadratic term is finite. -/
  a : ∀ i j, isFinite (Mat.entry q.a i j) = true
  /-- The linear term is finite. -/
  b : ∀ i, isFinite (q.b.get i) = true
  /-- The constant term is finite. -/
  c : isFinite q.c = true

/-- The quadratic functions with finite terms. -/
def Smooth.IsFiniteQuadratic (f : Smooth α n) : Prop :=
  ∃ q : Quadratic α n, q.Finite ∧ f = q.toSmooth

/-- **A quadratic function with finite terms** has its three formulas, with real terms, at every
real point. -/
theorem Smooth.IsFiniteQuadratic.exists_formulas {f : Smooth α n} (hf : f.IsFiniteQuadratic) :
    ∃ (A : Matrix (Fin n) (Fin n) ℝ) (b : Fin n → ℝ) (c : ℝ), ∀ z,
      f.HasValue z (Quadratic.valueOf A b c z) ∧ f.HasGradient z (A *ᵥ z + b) ∧
        f.HasHessian z A := by
  obtain ⟨q, hq, rfl⟩ := hf
  obtain ⟨A, hA⟩ := exists_liftMat hq.a
  obtain ⟨b, hb⟩ := exists_liftVec hq.b
  obtain ⟨c, hc⟩ := isFinite_iff.mp hq.c
  exact ⟨A.toMatrix, b.get, c, fun z => ⟨Quadratic.hasValue_toSmooth hA hb hc z,
    Quadratic.hasGradient_toSmooth hA hb z, Quadratic.hasHessian_toSmooth hA z⟩⟩

/-- It is real at every real point. -/
theorem Smooth.IsFiniteQuadratic.realAt {f : Smooth α n} (hf : f.IsFiniteQuadratic)
    (z : Fin n → ℝ) : f.RealAt z := by
  obtain ⟨A, b, c, h⟩ := hf.exists_formulas
  exact ⟨⟨_, (h z).1⟩, ⟨_, (h z).2.1⟩, ⟨_, (h z).2.2⟩⟩

theorem Quadratic.isFiniteQuadratic_ofTerms (hn : 0 < n) {A : Matrix (Fin n) (Fin n) ℝ}
    (hA : A.IsSymm) (b : Fin n → ℝ) (c : ℝ) :
    (ofTerms hn hA b c : Quadratic α n).toSmooth.IsFiniteQuadratic := by
  refine ⟨_, ⟨fun i j => ?_, fun i => ?_, isFinite_real c⟩, rfl⟩
  · exact (congrArg isFinite (entry_mat _ i j)).trans (isFinite_real _)
  · exact (congrArg isFinite (get_vec _ i)).trans (isFinite_real _)

theorem Quadratic.isFiniteQuadratic_affine (b c : ℝ) :
    (affine b c : Quadratic α 1).toSmooth.IsFiniteQuadratic :=
  isFiniteQuadratic_ofTerms one_pos Matrix.isSymm_zero ![b] c

/-! ## Barriers of quadratic functions -/

namespace Barrier

variable {φ : Barrier α n} {x : Fin n → ℝ}
  (hφ : ∀ f ∈ φ.objective :: φ.constraints, f.IsFiniteQuadratic)

include hφ

/-- The components have real values at every real point. -/
theorem exists_hasValue_of_mem (z : Fin n → ℝ) :
    ∀ f ∈ φ.objective :: φ.constraints, ∃ v, f.HasValue z v :=
  fun f hf => ((hφ f hf).realAt z).value

/-- At a strictly feasible point the derivatives are real. -/
theorem exists_hasGradient_hasHessian (hx : φ.StrictlyFeasibleAt x) :
    ∃ g H, φ.toSmooth.HasGradient x g ∧ φ.toSmooth.HasHessian x H := by
  obtain ⟨-, ⟨g, hg⟩, H, hH⟩ := realAt_toSmooth (fun f hf => (hφ f hf).realAt x) hx
  exact ⟨g, H, hg, hH⟩

/-- **The Hessian of a convex barrier** at a strictly feasible point is positive semidefinite, and
tells how far the domain reaches: a multiple of a direction stays inside, if its length in the norm
of the Hessian is less than one. -/
theorem posSemidef_and_strictlyFeasibleAt_add_smul
    (hconvex : ∀ f ∈ φ.objective :: φ.constraints, ∀ z K, f.HasHessian z K → K.PosSemidef)
    (hx : φ.StrictlyFeasibleAt x) {H : Matrix (Fin n) (Fin n) ℝ}
    (hH : φ.toSmooth.HasHessian x H) :
    H.PosSemidef ∧ ∀ (v : Fin n → ℝ) (σ : ℝ), σ ^ 2 * (v ⬝ᵥ H *ᵥ v) < 1 →
      φ.StrictlyFeasibleAt (x + σ • v) := by
  choose! A b e h using fun f hf => (hφ f hf).exists_formulas
  obtain ⟨hA₀, hA⟩ := List.forall_mem_cons.mp fun f hf => hconvex f hf x _ (h f hf x).2.2
  obtain ⟨h₀, h⟩ := List.forall_mem_cons.mp h
  obtain ⟨t, htnonneg, ht⟩ := φ.exists_weight_eq
  have hu := fun z c hc => (h c hc z).1
  have hneg := (φ.isStrictlyFeasible_iff (hu x)).mp hx
  have hHessian := φ.hasHessian_of_ne_zero ht (h₀ x).2.2 (hu x) (fun c hc => (hneg c hc).ne)
    (fun c hc => (h c hc x).2.1) fun c hc => (h c hc x).2.2
  rw [mat_injective (Except.ok.inj (hH.symm.trans hHessian))]
  refine ⟨posSemidef_hessian htnonneg hA₀ hneg hA, fun v σ hσ => ?_⟩
  refine (φ.isStrictlyFeasible_iff (hu (x + σ • v))).mpr fun c hc => ?_
  rw [Quadratic.valueOf_add_smul (Matrix.isHermitian_iff_isSymm.mp (hA c hc).isHermitian)]
  refine parabola_neg (hneg c hc) (lt_of_le_of_lt ?_ hσ)
  exact mul_le_mul_of_nonneg_left (curvature_le_of_mem (u := fun c => Quadratic.valueOf (A c) (b c)
    (e c) x) (d := fun c => A c *ᵥ x + b c) htnonneg hA₀ hneg hA v hc) (sq_nonneg σ)

end Barrier

/-! ## The line search of a barrier -/

namespace LineSearch

variable [InfinityRules α] {φ : Barrier α n} {x g v : Fin n → ℝ}
  (hφ : ∀ f ∈ φ.objective :: φ.constraints, f.IsFiniteQuadratic)

include hφ

/-- **A trial point outside the domain** is turned down exactly as long as the step length is above
the floor. -/
theorem turnsDown_outside_iff {F : ℝ} {k : ℕ}
    (hout : ¬ φ.StrictlyFeasibleAt (x + ((1 : ℝ) / 2) ^ k • v)) :
    ({} : LineSearch α).TurnsDown φ.toSmooth (vec x) (vec v) (real F) (Vec.dot (vec g) (vec v))
      (real ((1 / 2) ^ k)) ↔ k < lastTrial := by
  rw [← floor_lt_iff (α := α)]
  have hvalue : (φ.toSmooth.value
      (trial (vec x : Vec α n) (vec v) (real ((1 / 2) ^ k))).toArray).outcome = .ok infinity := by
    rw [trial_vec]
    exact Barrier.outcome_value_of_not_strictlyFeasibleAt (Barrier.exists_hasValue_of_mem hφ _)
      hout
  constructor
  · rintro ⟨y, -, -, hfloor⟩
    exact hfloor
  · refine turnsDown_of_infinity hvalue ?_
    rw [dot_vec]
    show isFinite (real F + ratio 1 4 * real ((1 / 2) ^ k) * real (g ⬝ᵥ v)) = true
    rw [ratio_real 1 (by norm_num), mul_real, mul_real, add_real]
    exact isFinite_real _

/-- **What the line search of a barrier finds** from a strictly feasible point: a step length that
leads to a strictly feasible point, or the first one that is not above the floor. -/
theorem exists_of_outcome_stepLength (hx : φ.StrictlyFeasibleAt x) {σ : α}
    (hσ : (({} : LineSearch α).stepLength φ.toSmooth (vec x) (vec g) (vec v)).outcome = .ok σ) :
    ∃ k : ℕ, σ = real ((1 / 2) ^ k) ∧
      (φ.StrictlyFeasibleAt (x + ((1 : ℝ) / 2) ^ k • v) ∨ k = lastTrial) := by
  obtain ⟨F, hF⟩ := Barrier.exists_hasValue (Barrier.exists_hasValue_of_mem hφ x) hx
  obtain ⟨fx, hfx, hsearch⟩ := outcome_stepLength_eq_ok.mp hσ
  obtain rfl := Except.ok.inj (hF.symm.trans hfx)
  obtain ⟨k, -, rfl, hstop, hturns⟩ := outcome_search_eq_ok_iff.mp hsearch
  simp only [lengthAfter_default] at hstop hturns ⊢
  refine ⟨k, rfl, or_iff_not_imp_left.mpr fun hout => ?_⟩
  -- the first trial outside the domain that is not turned down comes right after the last one above
  -- the floor
  obtain ⟨y, hy, -⟩ := id hstop
  have hlarge : ¬ k < lastTrial :=
    (turnsDown_outside_iff hφ hout).not.mp ((stopsAt_iff hy).mp hstop)
  refine le_antisymm (not_lt.mp fun hlt => ?_) (not_lt.mp hlarge)
  obtain ⟨-, -, -, hfloor⟩ := hturns lastTrial hlt
  exact lt_irrefl lastTrial ((floor_lt_iff lastTrial).mp hfloor)

/-- If no trial point lies inside the domain, the floor ends the search. -/
theorem outcome_stepLength_of_outside (hx : φ.StrictlyFeasibleAt x)
    (hout : ∀ k ≤ lastTrial, ¬ φ.StrictlyFeasibleAt (x + ((1 : ℝ) / 2) ^ k • v)) :
    (({} : LineSearch α).stepLength φ.toSmooth (vec x) (vec g) (vec v)).outcome
      = .ok (real ((1 / 2) ^ lastTrial)) := by
  obtain ⟨F, hF⟩ := Barrier.exists_hasValue (Barrier.exists_hasValue_of_mem hφ x) hx
  refine outcome_stepLength_eq_ok.mpr ⟨_, hF, outcome_search_eq_ok_iff.mpr
    ⟨lastTrial, ?_, (lengthAfter_default lastTrial).symm, ?_, fun j hj => ?_⟩⟩
  · show 34 < 1000000
    decide
  · rw [lengthAfter_default]
    have hvalue := Barrier.outcome_value_of_not_strictlyFeasibleAt
      (Barrier.exists_hasValue_of_mem hφ _) (hout lastTrial le_rfl)
    rw [← trial_vec] at hvalue
    exact (stopsAt_iff hvalue).mpr ((turnsDown_outside_iff hφ (hout lastTrial le_rfl)).not.mpr
      (lt_irrefl lastTrial))
  · rw [lengthAfter_default]
    exact (turnsDown_outside_iff hφ (hout j hj.le)).mpr hj

end LineSearch

end InteriorPoint

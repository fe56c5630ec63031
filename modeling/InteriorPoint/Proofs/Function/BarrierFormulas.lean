import InteriorPoint.Proofs.Function.BarrierFolds
import InteriorPoint.Proofs.Function.RealPoint

/-!
# The formulas of a barrier

What the three evaluation loops of a barrier come to at a real point, over exact scalars. Where
the constraints have negative real values `u`, real gradients `d` and real Hessians `K`, the
barrier of weight `t` has

* the value `t·v₀ − ∑ log (−u c)`
* the gradient `t·g₀ + ∑ (−1/u c)·d c`
* the Hessian `t·K₀ + ∑ (d c·(d c)ᵀ/(u c)² − K c/u c)`

where `v₀`, `g₀` and `K₀` are those of the objective and the sums run over the list of
constraints. Each loop is a fold over that list, and each fold stays among the real numbers.
-/

namespace InteriorPoint

namespace Barrier

open Exact

variable {α : Type} [Scalar α] [Exact α] {n : ℕ}

/-- The weight of a barrier is a real number, and not negative. -/
theorem exists_weight_eq (φ : Barrier α n) : ∃ t : ℝ, 0 ≤ t ∧ φ.weight = real t := by
  obtain ⟨t, ht⟩ := isFinite_iff.mp φ.weight_finite
  have hneg := φ.weight_not_neg
  rw [ht, real_lt_zero, not_lt] at hneg
  exact ⟨t, hneg, ht⟩

variable {x : Fin n → ℝ} {u : Smooth α n → ℝ} {d : Smooth α n → Fin n → ℝ}
  {K : Smooth α n → Matrix (Fin n) (Fin n) ℝ} {cs : List (Smooth α n)}

/-! ## Feasibility -/

/-- A real number violates a constraint if it is not negative. -/
theorem violates_real {v : ℝ} : violates (real v : α) ↔ 0 ≤ v := by
  unfold violates
  rw [isNaN_real, zero_le_real]
  exact or_iff_right Bool.false_ne_true

/-- The test of strict feasibility at a real point. -/
theorem outcome_isStrictlyFeasible (φ : Barrier α n)
    (hu : ∀ c ∈ φ.constraints, c.HasValue x (u c)) :
    (φ.isStrictlyFeasible (vec x).toArray).outcome
      = .ok (decide (∀ c ∈ φ.constraints, u c < 0)) := by
  refine (outcome_isStrictlyFeasible_eq hu).trans (congrArg Except.ok (decide_eq_decide.mpr ?_))
  exact forall₂_congr fun c _ => real_lt_zero

/-- **Strict feasibility at a real point**: every constraint has a negative value. -/
theorem isStrictlyFeasible_iff (φ : Barrier α n) (hu : ∀ c ∈ φ.constraints, c.HasValue x (u c)) :
    (φ.isStrictlyFeasible (vec x).toArray).outcome = .ok true ↔ ∀ c ∈ φ.constraints, u c < 0 := by
  rw [φ.outcome_isStrictlyFeasible hu, Except.ok.injEq, decide_eq_true_iff]

/-! ## Value -/

/-- The logarithms of a list of constraints with negative values, taken off a real number. -/
theorem foldl_sub_log (hneg : ∀ c ∈ cs, u c < 0) (v : ℝ) :
    cs.foldl (fun v c => v - Scalar.log (-(real (u c) : α))) (real v)
      = real (v - (cs.map fun c => Real.log (-u c)).sum) := by
  induction cs generalizing v with
  | nil => simp
  | cons c cs ih =>
    obtain ⟨hc, hneg⟩ := List.forall_mem_cons.mp hneg
    rw [List.foldl_cons, neg_real, log_real (neg_pos.mpr hc), sub_real, ih hneg, List.map_cons,
      List.sum_cons, sub_sub]

/-- **The value of a barrier inside its domain.** -/
theorem hasValue_of_feasible (φ : Barrier α n) {t v₀ : ℝ} (ht : φ.weight = real t)
    (h₀ : φ.objective.HasValue x v₀) (hu : ∀ c ∈ φ.constraints, c.HasValue x (u c))
    (hneg : ∀ c ∈ φ.constraints, u c < 0) :
    φ.toSmooth.HasValue x (t * v₀ - (φ.constraints.map fun c => Real.log (-u c)).sum) := by
  have hsatisfied : ¬ ∃ c ∈ φ.constraints, violates (real (u c) : α) :=
    fun ⟨c, hc, hviolated⟩ => (violates_real.mp hviolated).not_gt (hneg c hc)
  refine (outcome_value_eq_foldl h₀ hu).trans ?_
  rw [if_neg hsatisfied, ht, mul_real, foldl_sub_log hneg]

/-! ## Gradient -/

/-- The contribution of one constraint to a real gradient. -/
theorem addScaled_neg_one_div {v : ℝ} (hv : v ≠ 0) (e g : Fin n → ℝ) :
    Vec.addScaled (-1 / real v) (vec e : Vec α n) (vec g) = vec ((-1 / v) • e + g) := by
  rw [← real_one, neg_real, div_real _ hv, addScaled_vec]

/-- The contributions of a list of constraints to a real gradient. -/
theorem foldl_addScaled (hne : ∀ c ∈ cs, u c ≠ 0) (g : Fin n → ℝ) :
    cs.foldl (fun g c => Vec.addScaled (-1 / real (u c)) (vec (d c)) g) (vec g : Vec α n)
      = vec (g + (cs.map fun c => (-1 / u c) • d c).sum) := by
  induction cs generalizing g with
  | nil => simp
  | cons c cs ih =>
    obtain ⟨hc, hne⟩ := List.forall_mem_cons.mp hne
    -- the loop adds in front of the gradient so far, the formula behind it
    rw [List.foldl_cons, addScaled_neg_one_div hc, ih hne, List.map_cons, List.sum_cons,
      add_comm _ g, add_assoc]

/-- **The gradient of a barrier** where no constraint has the value zero. -/
theorem hasGradient_of_ne_zero (φ : Barrier α n) {t : ℝ} {g₀ : Fin n → ℝ}
    (ht : φ.weight = real t) (h₀ : φ.objective.HasGradient x g₀)
    (hu : ∀ c ∈ φ.constraints, c.HasValue x (u c)) (hne : ∀ c ∈ φ.constraints, u c ≠ 0)
    (hd : ∀ c ∈ φ.constraints, c.HasGradient x (d c)) :
    φ.toSmooth.HasGradient x (t • g₀ + (φ.constraints.map fun c => (-1 / u c) • d c).sum) := by
  refine (outcome_gradient_eq_foldl h₀ hu hd).trans ?_
  rw [ht, scale_vec, foldl_addScaled hne]

/-! ## Hessian -/

/-- What a constraint with the value `v`, the gradient `e` and the Hessian `M` contributes to the
Hessian of a barrier. -/
noncomputable def curvature (v : ℝ) (e : Fin n → ℝ) (M : Matrix (Fin n) (Fin n) ℝ) :
    Matrix (Fin n) (Fin n) ℝ :=
  (1 / (v * v)) • Matrix.vecMulVec e e - (1 / v) • M

/-- The rank-one term and the curvature term of a constraint, on real numbers. -/
theorem addCurvature_mat {v : ℝ} (hv : v ≠ 0) (e : Fin n → ℝ)
    (H M : Matrix (Fin n) (Fin n) ℝ) :
    addCurvature (mat H : Mat α n n) (real v) (vec e) (mat M) = mat (H + curvature v e M) := by
  refine Mat.ext_entry fun j k => ?_
  unfold addCurvature
  rw [Mat.entry_of, entry_mat, entry_mat, entry_mat, get_vec, get_vec, mul_real,
    mul_real, div_real _ (mul_ne_zero hv hv), div_real _ hv, sub_real, add_real]
  simp only [curvature, Matrix.add_apply, Matrix.sub_apply, Matrix.smul_apply,
    Matrix.vecMulVec_apply, smul_eq_mul, one_div_mul_eq_div]

/-- The contributions of a list of constraints to a real Hessian. -/
theorem foldl_addCurvature (hne : ∀ c ∈ cs, u c ≠ 0) (H : Matrix (Fin n) (Fin n) ℝ) :
    cs.foldl (fun H c => addCurvature H (real (u c)) (vec (d c)) (mat (K c))) (mat H : Mat α n n)
      = mat (H + (cs.map fun c => curvature (u c) (d c) (K c)).sum) := by
  induction cs generalizing H with
  | nil => simp
  | cons c cs ih =>
    obtain ⟨hc, hne⟩ := List.forall_mem_cons.mp hne
    rw [List.foldl_cons, addCurvature_mat hc, ih hne, List.map_cons, List.sum_cons, add_assoc]

/-- **The Hessian of a barrier** where no constraint has the value zero. -/
theorem hasHessian_of_ne_zero (φ : Barrier α n) {t : ℝ} {K₀ : Matrix (Fin n) (Fin n) ℝ}
    (ht : φ.weight = real t) (h₀ : φ.objective.HasHessian x K₀)
    (hu : ∀ c ∈ φ.constraints, c.HasValue x (u c)) (hne : ∀ c ∈ φ.constraints, u c ≠ 0)
    (hd : ∀ c ∈ φ.constraints, c.HasGradient x (d c))
    (hK : ∀ c ∈ φ.constraints, c.HasHessian x (K c)) :
    φ.toSmooth.HasHessian x
      (t • K₀ + (φ.constraints.map fun c => curvature (u c) (d c) (K c)).sum) := by
  refine (outcome_hessian_eq_foldl h₀ hu hd hK).trans ?_
  rw [ht, mapEntries_mat, foldl_addCurvature hne]

end Barrier

end InteriorPoint

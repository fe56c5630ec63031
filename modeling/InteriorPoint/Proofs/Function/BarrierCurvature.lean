import InteriorPoint.Proofs.Function.BarrierFormulas
import Mathlib.Algebra.Order.BigOperators.Group.List
import Mathlib.Algebra.Order.Star.Real
import Mathlib.LinearAlgebra.Matrix.PosDef

/-!
# The curvature of a barrier

Along a direction `h` the Hessian of a barrier of weight `t` has the curvature

  `t·hᵀK₀h + ∑ ((d c·h/u c)² − hᵀ(K c)h/u c)`

over constraints with values `u`, gradients `d` and Hessians `K`. Where the values are negative and
the Hessians of all components positive semidefinite, no term is negative. So the curvature of the
barrier bounds that of each constraint (`curvature_le_of_mem`), and it vanishes exactly where every
term does (`curvature_eq_zero_iff`).
-/

open Matrix

namespace InteriorPoint

namespace Barrier

variable {n : ℕ}

/-! ## One constraint -/

/-- The curvature of a constraint along a direction. -/
theorem dotProduct_curvature_mulVec (v : ℝ) (e : Fin n → ℝ) (M : Matrix (Fin n) (Fin n) ℝ)
    (h : Fin n → ℝ) :
    h ⬝ᵥ curvature v e M *ᵥ h = (e ⬝ᵥ h / v) ^ 2 - h ⬝ᵥ M *ᵥ h / v := by
  unfold curvature
  rw [Matrix.sub_mulVec, Matrix.smul_mulVec, Matrix.smul_mulVec, Matrix.vecMulVec_mulVec,
    op_smul_eq_smul, dotProduct_sub, dotProduct_smul, dotProduct_smul, dotProduct_smul,
    dotProduct_comm h e, smul_eq_mul, smul_eq_mul, smul_eq_mul]
  ring

variable {v : ℝ} {e : Fin n → ℝ} {M : Matrix (Fin n) (Fin n) ℝ}

/-- A convex constraint that is strictly satisfied contributes no negative curvature. -/
theorem posSemidef_curvature (hv : v < 0) (hM : M.PosSemidef) : (curvature v e M).PosSemidef := by
  have hrank : (Matrix.vecMulVec e e).PosSemidef := Matrix.posSemidef_vecMulVec_self_star e
  have hfactor : 0 ≤ -(1 / v) := by
    rw [neg_nonneg]
    exact div_nonpos_of_nonneg_of_nonpos zero_le_one hv.le
  unfold curvature
  rw [sub_eq_add_neg, ← neg_smul]
  exact (hrank.smul (div_nonneg zero_le_one (mul_self_nonneg v))).add (hM.smul hfactor)

/-- It contributes none at all only along its boundary and where it is flat. -/
theorem dotProduct_curvature_mulVec_eq_zero_iff (hv : v < 0) (hM : M.PosSemidef) (h : Fin n → ℝ) :
    h ⬝ᵥ curvature v e M *ᵥ h = 0 ↔ e ⬝ᵥ h = 0 ∧ h ⬝ᵥ M *ᵥ h = 0 := by
  have hsquare : 0 ≤ (e ⬝ᵥ h / v) ^ 2 := sq_nonneg _
  have hcurved : 0 ≤ -(h ⬝ᵥ M *ᵥ h / v) :=
    neg_nonneg.mpr (div_nonpos_of_nonneg_of_nonpos (hM.dotProduct_mulVec_nonneg h) hv.le)
  rw [dotProduct_curvature_mulVec, sub_eq_add_neg, add_eq_zero_iff_of_nonneg hsquare hcurved,
    sq_eq_zero_iff, neg_eq_zero, div_eq_zero_iff, div_eq_zero_iff, or_iff_left hv.ne,
    or_iff_left hv.ne]

/-! ## All constraints -/

variable {ι : Type*} {cs : List ι} {t : ℝ} {K₀ : Matrix (Fin n) (Fin n) ℝ} {u : ι → ℝ}
  {d : ι → Fin n → ℝ} {K : ι → Matrix (Fin n) (Fin n) ℝ}

/-- The curvature of a barrier, term by term. -/
theorem dotProduct_add_list_sum_mulVec (K₀ : Matrix (Fin n) (Fin n) ℝ)
    (N : ι → Matrix (Fin n) (Fin n) ℝ) (h : Fin n → ℝ) :
    h ⬝ᵥ (t • K₀ + (cs.map N).sum) *ᵥ h
      = t * (h ⬝ᵥ K₀ *ᵥ h) + (cs.map fun c => h ⬝ᵥ N c *ᵥ h).sum := by
  have hsum : h ⬝ᵥ (cs.map N).sum *ᵥ h = (cs.map fun c => h ⬝ᵥ N c *ᵥ h).sum := by
    induction cs with
    | nil => simp
    | cons c cs ih =>
      rw [List.map_cons, List.sum_cons, add_mulVec, dotProduct_add, ih, List.map_cons,
        List.sum_cons]
  rw [add_mulVec, smul_mulVec, dotProduct_add, dotProduct_smul, smul_eq_mul, hsum]

/-- **The Hessian of a convex barrier** is positive semidefinite. -/
theorem posSemidef_hessian (ht : 0 ≤ t) (hK₀ : K₀.PosSemidef) (hu : ∀ c ∈ cs, u c < 0)
    (hK : ∀ c ∈ cs, (K c).PosSemidef) :
    (t • K₀ + (cs.map fun c => curvature (u c) (d c) (K c)).sum).PosSemidef := by
  refine (hK₀.smul ht).add ?_
  induction cs with
  | nil => exact .zero
  | cons c cs ih =>
    obtain ⟨huc, hu⟩ := List.forall_mem_cons.mp hu
    obtain ⟨hKc, hK⟩ := List.forall_mem_cons.mp hK
    rw [List.map_cons, List.sum_cons]
    exact (posSemidef_curvature huc hKc).add (ih hu hK)

/-- No constraint contributes negative curvature. -/
theorem curvatures_nonneg (hu : ∀ c ∈ cs, u c < 0) (hK : ∀ c ∈ cs, (K c).PosSemidef)
    (h : Fin n → ℝ) :
    ∀ a ∈ cs.map fun c => h ⬝ᵥ curvature (u c) (d c) (K c) *ᵥ h, 0 ≤ a := by
  intro a ha
  obtain ⟨c, hc, rfl⟩ := List.mem_map.mp ha
  exact (posSemidef_curvature (hu c hc) (hK c hc)).dotProduct_mulVec_nonneg h

/-- **The curvature of a convex barrier bounds that of each constraint.** -/
theorem curvature_le_of_mem (ht : 0 ≤ t) (hK₀ : K₀.PosSemidef) (hu : ∀ c ∈ cs, u c < 0)
    (hK : ∀ c ∈ cs, (K c).PosSemidef) (h : Fin n → ℝ) {c : ι} (hc : c ∈ cs) :
    (d c ⬝ᵥ h / u c) ^ 2 - h ⬝ᵥ K c *ᵥ h / u c
      ≤ h ⬝ᵥ (t • K₀ + (cs.map fun c => curvature (u c) (d c) (K c)).sum) *ᵥ h := by
  rw [← dotProduct_curvature_mulVec, dotProduct_add_list_sum_mulVec]
  have hmem : h ⬝ᵥ curvature (u c) (d c) (K c) *ᵥ h
      ∈ cs.map fun c => h ⬝ᵥ curvature (u c) (d c) (K c) *ᵥ h := List.mem_map.mpr ⟨c, hc, rfl⟩
  have hterm := List.single_le_sum (curvatures_nonneg hu hK h) _ hmem
  have hobjective : 0 ≤ t * (h ⬝ᵥ K₀ *ᵥ h) := mul_nonneg ht (hK₀.dotProduct_mulVec_nonneg h)
  linarith

/-- **A convex barrier is flat along a direction** exactly if its weighted objective is, and every
constraint keeps its value there to second order. -/
theorem curvature_eq_zero_iff (ht : 0 ≤ t) (hK₀ : K₀.PosSemidef) (hu : ∀ c ∈ cs, u c < 0)
    (hK : ∀ c ∈ cs, (K c).PosSemidef) (h : Fin n → ℝ) :
    h ⬝ᵥ (t • K₀ + (cs.map fun c => curvature (u c) (d c) (K c)).sum) *ᵥ h = 0 ↔
      t * (h ⬝ᵥ K₀ *ᵥ h) = 0 ∧ ∀ c ∈ cs, d c ⬝ᵥ h = 0 ∧ h ⬝ᵥ K c *ᵥ h = 0 := by
  have hobjective : 0 ≤ t * (h ⬝ᵥ K₀ *ᵥ h) := mul_nonneg ht (hK₀.dotProduct_mulVec_nonneg h)
  have hterms := curvatures_nonneg (d := d) hu hK h
  rw [dotProduct_add_list_sum_mulVec,
    add_eq_zero_iff_of_nonneg hobjective (List.sum_nonneg hterms)]
  refine and_congr_right fun _ => ⟨fun hsum c hc => ?_, fun hall => ?_⟩
  · rw [← dotProduct_curvature_mulVec_eq_zero_iff (hu c hc) (hK c hc)]
    exact List.all_zero_of_le_zero_le_of_sum_eq_zero hterms hsum (List.mem_map.mpr ⟨c, hc, rfl⟩)
  · refine List.sum_eq_zero fun a ha => ?_
    obtain ⟨c, hc, rfl⟩ := List.mem_map.mp ha
    exact (dotProduct_curvature_mulVec_eq_zero_iff (hu c hc) (hK c hc) h).mpr (hall c hc)

/-- **No flat direction**: along none but the zero direction the weighted objective has no curvature
and every constraint neither slope nor curvature. -/
def NoFlatDirection (t : ℝ) (K₀ : Matrix (Fin n) (Fin n) ℝ) (cs : List ι) (d : ι → Fin n → ℝ)
    (K : ι → Matrix (Fin n) (Fin n) ℝ) : Prop :=
  ∀ h : Fin n → ℝ, t * (h ⬝ᵥ K₀ *ᵥ h) = 0 →
    (∀ c ∈ cs, d c ⬝ᵥ h = 0 ∧ h ⬝ᵥ K c *ᵥ h = 0) → h = 0

/-- **The Hessian of a convex barrier is positive definite** exactly if it is flat along no
direction. -/
theorem posDef_hessian_iff (ht : 0 ≤ t) (hK₀ : K₀.PosSemidef) (hu : ∀ c ∈ cs, u c < 0)
    (hK : ∀ c ∈ cs, (K c).PosSemidef) :
    (t • K₀ + (cs.map fun c => curvature (u c) (d c) (K c)).sum).PosDef ↔
      NoFlatDirection t K₀ cs d K := by
  have hsemidef := posSemidef_hessian (d := d) ht hK₀ hu hK
  constructor
  · intro hposDef h hobjective hconstraints
    by_contra hne
    have hflat := (curvature_eq_zero_iff ht hK₀ hu hK h).mpr ⟨hobjective, hconstraints⟩
    exact (hposDef.dotProduct_mulVec_pos hne).ne' hflat
  · intro hflat
    refine .of_dotProduct_mulVec_pos hsemidef.isHermitian fun {h} hne => ?_
    refine lt_of_le_of_ne (hsemidef.dotProduct_mulVec_nonneg h) fun hzero => hne ?_
    obtain ⟨hobjective, hconstraints⟩ := (curvature_eq_zero_iff ht hK₀ hu hK h).mp hzero.symm
    exact hflat h hobjective hconstraints

end Barrier

end InteriorPoint

import InteriorPoint.Proofs.Function.BarrierContract
import Mathlib.Algebra.Order.BigOperators.Group.List
import Mathlib.Analysis.Convex.Deriv
import Mathlib.Analysis.Convex.Mul

/-!
# The duality gap of a barrier

At a strictly feasible point at which the gradient of a barrier is a combination of the rows of a
matrix `A`, no point that is feasible and that `A` does not tell apart from it has an objective
smaller by more than `m/t`, for `m` constraints and the weight `t` (`duality_gap_law`).

The multipliers are those that the gradient puts on the constraints. A convex function lies above
its tangent (`Smooth.IsConvex.slope_le`), so towards a feasible point a constraint with value `u`
and gradient `d` does not rise faster than `-u`, and its term `(-1/u)·d` of the gradient contributes
at most one to the slope of the barrier, which is zero (`Barrier.slope_le`).
-/

open Topology
open scoped Matrix

namespace InteriorPoint

open Exact

variable {n : ℕ}

/-! ## Convex functions -/

/-- **A convex function lies above its tangent.** -/
theorem inner_gradient_le {D : Set (Space n)} {F : Space n → ℝ} {g x y : Space n}
    (hF : ConvexOn ℝ D F) (hg : HasGradientAt F g x) (hx : x ∈ D) (hy : y ∈ D) :
    inner ℝ g (y - x) ≤ F y - F x := by
  -- the function along the segment from `x` to `y`
  have hline : (F ∘ AffineMap.lineMap x y) = fun s : ℝ => F (x + s • (y - x)) := by
    funext s
    rw [Function.comp_apply, AffineMap.lineMap_apply_module', add_comm]
  have hconvex := hF.comp_affineMap (AffineMap.lineMap x y : ℝ →ᵃ[ℝ] Space n)
  have hslope : HasDerivAt (F ∘ AffineMap.lineMap x y) (inner ℝ g (y - x)) (0 : ℝ) := by
    rw [hline]
    exact hg.hasFDerivAt.hasLineDerivAt (y - x)
  have hle := hconvex.le_slope_of_hasDerivAt (x := 0) (y := 1)
    (by rwa [Set.mem_preimage, AffineMap.lineMap_apply_zero])
    (by rwa [Set.mem_preimage, AffineMap.lineMap_apply_one]) zero_lt_one hslope
  rwa [slope_def_field, sub_zero, div_one, Function.comp_apply, Function.comp_apply,
    AffineMap.lineMap_apply_one, AffineMap.lineMap_apply_zero] at hle

namespace Smooth

/-- **A convex function**: real and convex on a convex set of points, and infinite at all others. -/
def IsConvex (f : Smooth Extended n) : Prop :=
  ∃ (D : Set (Space n)) (F : Space n → ℝ), ConvexOn ℝ D F ∧ (∀ z ∈ D, f.HasValue z (F z)) ∧
    ∀ z ∉ D, (f.value (vec z).toArray).outcome = .ok Scalar.infinity

namespace IsConvex

variable {f : Smooth Extended n} {x : Space n}

/-- **The tangent of a convex function** that keeps the gradient contract: towards a point where
the value is real, the value rises by at least what the slope says. Elsewhere it is infinite. -/
theorem slope_le (hf : f.IsConvex) (hx : f.TrueGradientAt x) {u : ℝ} {d : Fin n → ℝ}
    (hu : f.HasValue x u) (hd : f.HasGradient x d) (y : Space n) :
    (f.value (vec y).toArray).outcome = .ok Scalar.infinity ∨
      ∃ w, f.HasValue y w ∧ d ⬝ᵥ (y - x).ofLp ≤ w - u := by
  obtain ⟨D, F, hconvex, hreal, hinfinite⟩ := hf
  obtain ⟨G, g, hG, hg, hgradient⟩ := hx
  have hmem {z : Space n} {w : ℝ} (hz : f.HasValue z w) : z ∈ D ∧ F z = w := by
    have hzD : z ∈ D := by
      by_contra hout
      exact nomatch (hinfinite z hout).symm.trans hz
    exact ⟨hzD, real_injective (α := Extended) (Except.ok.inj ((hreal z hzD).symm.trans hz))⟩
  have hFG : F =ᶠ[𝓝 x] G := hG.mono fun z hz => (hmem hz).2
  obtain ⟨hxD, rfl⟩ := hmem hu
  obtain rfl := vec_injective (Except.ok.inj (hg.symm.trans hd))
  by_cases hy : y ∈ D
  · refine Or.inr ⟨F y, hreal y hy, ?_⟩
    have hle := inner_gradient_le hconvex (hgradient.congr_of_eventuallyEq hFG) hxD hy
    rwa [EuclideanSpace.inner_eq_star_dotProduct, star_trivial, dotProduct_comm] at hle
  · exact Or.inl (hinfinite y hy)

end IsConvex

end Smooth

/-! ## The bound -/

namespace Barrier

/-- **The bound is the number of constraints over the weight**, for a positive weight. -/
theorem dualityGapBound_eq {α : Type} [Scalar α] [Exact α] (φ : Barrier α n) {t : ℝ}
    (ht : φ.weight = real t) (hpos : 0 < t) :
    φ.dualityGapBound = real (φ.constraints.length / t) := by
  unfold dualityGapBound
  split_ifs with hempty
  · rw [hempty, Nat.cast_zero, zero_div, real_zero]
  · rw [ht, ← real_natCast, div_real _ hpos.ne']

/-- The slope of a sum is the sum of the slopes. -/
theorem list_sum_dotProduct {ι : Type*} (cs : List ι) (e : ι → Fin n → ℝ) (h : Fin n → ℝ) :
    (cs.map e).sum ⬝ᵥ h = (cs.map fun c => e c ⬝ᵥ h).sum := by
  induction cs with
  | nil => exact zero_dotProduct h
  | cons c cs ih =>
    rw [List.map_cons, List.sum_cons, add_dotProduct, ih, List.map_cons, List.sum_cons]

/-- **Each constraint contributes at most one to the slope of a barrier** towards a point, if its
tangent is not positive there. -/
theorem slope_le {ι : Type*} {cs : List ι} {u : ι → ℝ} {d : ι → Fin n → ℝ} {h : Fin n → ℝ}
    (hu : ∀ c ∈ cs, u c < 0) (hd : ∀ c ∈ cs, d c ⬝ᵥ h ≤ -u c) (t : ℝ) (g₀ : Fin n → ℝ) :
    (t • g₀ + (cs.map fun c => (-1 / u c) • d c).sum) ⬝ᵥ h ≤ t * (g₀ ⬝ᵥ h) + cs.length := by
  have hterm : ∀ a ∈ cs.map fun c => ((-1 / u c) • d c) ⬝ᵥ h, a ≤ 1 := by
    intro a ha
    obtain ⟨c, hc, rfl⟩ := List.mem_map.mp ha
    rw [smul_dotProduct, smul_eq_mul, neg_div, ← div_neg, one_div_mul_eq_div]
    exact (div_le_one (neg_pos.mpr (hu c hc))).mpr (hd c hc)
  have hsum := List.sum_le_card_nsmul _ 1 hterm
  rw [List.length_map, nsmul_one] at hsum
  rw [add_dotProduct, smul_dotProduct, smul_eq_mul, list_sum_dotProduct]
  exact add_le_add_right hsum _

end Barrier

/-- **The law of the duality gap.** For a barrier of positive weight over convex functions whose
gradients at a strictly feasible point `x` are the gradients of their values: if the gradient of the
barrier there and a combination of the rows of a matrix `A` cancel, the objective at `x` exceeds the
one at no feasible point `y` with `A·y = A·x` by more than the bound. -/
theorem duality_gap_law (φ : Barrier Extended n) (hweight : 0 < φ.weight)
    (hconvex : ∀ f ∈ φ.objective :: φ.constraints, f.IsConvex) (x : Space n)
    (hx : φ.StrictlyFeasibleAt x)
    (hgradient : ∀ f ∈ φ.objective :: φ.constraints, f.TrueGradientAt x) {p : ℕ}
    (A : Matrix (Fin p) (Fin n) ℝ) (ν : Fin p → ℝ) (g : Fin n → ℝ)
    (hg : φ.toSmooth.HasGradient x g) (hstationary : g + Aᵀ *ᵥ ν = 0) (y : Space n)
    (hy : A *ᵥ y.ofLp = A *ᵥ x.ofLp)
    (hle : ∀ c ∈ φ.constraints, ∃ v, (c.value (vec y).toArray).outcome = .ok v ∧ v ≤ 0) :
    ∃ vx vy, (φ.objective.value (vec x).toArray).outcome = .ok vx ∧
      (φ.objective.value (vec y).toArray).outcome = .ok vy ∧ vx - vy ≤ φ.dualityGapBound := by
  obtain ⟨t, -, ht⟩ := φ.exists_weight_eq
  have hpos : 0 < t := by rwa [ht, ← real_zero, real_lt_real] at hweight
  obtain ⟨hconvex₀, hconvex⟩ := List.forall_mem_cons.mp hconvex
  obtain ⟨hgradient₀, hgradient⟩ := List.forall_mem_cons.mp hgradient
  have hvalues {f : Smooth Extended n} (hf : f.TrueGradientAt x) :
      ∃ u d, f.HasValue x u ∧ f.HasGradient x d := by
    obtain ⟨F, d, hF, hd, -⟩ := hf
    exact ⟨F x, d, hF.self_of_nhds, hd⟩
  obtain ⟨u₀, g₀, hu₀, hg₀⟩ := hvalues hgradient₀
  choose! u d hu hd using fun c hc => hvalues (hgradient c hc)
  have hneg : ∀ c ∈ φ.constraints, u c < 0 := (φ.isStrictlyFeasible_iff hu).mp hx
  -- towards `y` no constraint rises by more than its distance from zero
  have hrise : ∀ c ∈ φ.constraints, d c ⬝ᵥ (y - x).ofLp ≤ -u c := by
    intro c hc
    obtain ⟨v, hv, hvle⟩ := hle c hc
    obtain hinfinite | ⟨w, hw, hslope⟩ :=
      (hconvex c hc).slope_le (hgradient c hc) (hu c hc) (hd c hc) y
    · obtain rfl := Except.ok.inj (hv.symm.trans hinfinite)
      exact absurd hvle Bool.noConfusion
    · obtain rfl := Except.ok.inj (hv.symm.trans hw)
      have hwle : w ≤ 0 := hvle
      linarith
  have hformula := φ.hasGradient_of_ne_zero ht hg₀ hu (fun c hc => (hneg c hc).ne) hd
  have hflat : g ⬝ᵥ (y - x).ofLp = 0 := by
    rw [eq_neg_of_add_eq_zero_left hstationary, neg_dotProduct, Matrix.mulVec_transpose,
      ← Matrix.dotProduct_mulVec, WithLp.ofLp_sub, Matrix.mulVec_sub, hy, sub_self,
      dotProduct_zero, neg_zero]
  have hslope := Barrier.slope_le hneg hrise t g₀
  rw [← vec_injective (Except.ok.inj (hg.symm.trans hformula)), hflat] at hslope
  obtain hinfinite | ⟨w, hw, htangent⟩ := hconvex₀.slope_le hgradient₀ hu₀ hg₀ y
  · refine ⟨_, _, hu₀, hinfinite, ?_⟩
    rw [φ.dualityGapBound_eq ht hpos]
    exact rfl
  · refine ⟨_, _, hu₀, hw, ?_⟩
    rw [φ.dualityGapBound_eq ht hpos, sub_real, real_le_real, le_div_iff₀ hpos]
    have hscaled := mul_le_mul_of_nonneg_left htangent hpos.le
    linarith

/-- The quartic constraint is convex. -/
theorem Quartic.isConvex_ball : (ball : Smooth Extended 2).IsConvex := by
  have hcoordinate (i : Fin 2) {k : ℕ} (hk : Even k) :
      ConvexOn ℝ Set.univ fun z : Space 2 => z i ^ k :=
    (hk.convexOn_pow : ConvexOn ℝ Set.univ fun s : ℝ => s ^ k).comp_linearMap
      (EuclideanSpace.proj (𝕜 := ℝ) i).toLinearMap
  have hconvex := ((hcoordinate 0 (k := 4) (by decide)).add (hcoordinate 1 even_two)).add_const (-4)
  refine ⟨Set.univ, _, hconvex, fun z _ => ?_, fun z hz => absurd (Set.mem_univ z) hz⟩
  convert hasValue_ball z.ofLp using 1
  show z 0 ^ 4 + z 1 ^ 2 + -4 = z 0 * z 0 * (z 0 * z 0) + z 1 * z 1 - 4
  ring

/-- The law for a barrier inside the quartic ball, on a line that touches a level set. -/
theorem duality_gap_law_insideBall :
    let φ : Barrier Extended 2 := Barrier.insideBall 3 (by norm_num) Quartic.ball
    φ.StrictlyFeasibleAt (!₂[1, 1] : Space 2) ∧
    φ.toSmooth.HasGradient (!₂[1, 1] : Space 2) ![14, 7] ∧
    (![14, 7] + !![4, 2]ᵀ *ᵥ ![-(7 / 2)] : Fin 2 → ℝ) = 0 ∧
    ∃ vx vy, (φ.objective.value (vec ![1, 1]).toArray).outcome = .ok vx ∧
      (φ.objective.value (vec ![5 / 4, 1 / 2]).toArray).outcome = .ok vy ∧
      vx - vy ≤ φ.dualityGapBound := by
  intro φ
  have hx : φ.StrictlyFeasibleAt (!₂[1, 1] : Space 2) :=
    Barrier.strictlyFeasibleAt_insideBall _ _ (by norm_num)
  have hconvex : ∀ f ∈ φ.objective :: φ.constraints, f.IsConvex :=
    List.forall_mem_cons.mpr
      ⟨Quartic.isConvex_ball, List.forall_mem_singleton.mpr Quartic.isConvex_ball⟩
  have hgradient : ∀ f ∈ φ.objective :: φ.constraints, f.TrueGradientAt !₂[1, 1] :=
    List.forall_mem_cons.mpr ⟨Quartic.trueGradientAt_ball _,
      List.forall_mem_singleton.mpr (Quartic.trueGradientAt_ball _)⟩
  have hu : ∀ c ∈ φ.constraints, c.HasValue (!₂[1, 1] : Space 2) (-2) := by
    refine List.forall_mem_singleton.mpr ?_
    convert Quartic.hasValue_ball _ using 1
    norm_num
  have hd : ∀ c ∈ φ.constraints, c.HasGradient (!₂[1, 1] : Space 2) ![4, 2] := by
    refine List.forall_mem_singleton.mpr ?_
    convert Quartic.hasGradient_ball _ using 1
    norm_num
  have hg : φ.toSmooth.HasGradient (!₂[1, 1] : Space 2) ![14, 7] := by
    convert φ.hasGradient_of_ne_zero (t := 3) rfl (hd _ (List.mem_singleton_self _)) hu
      (by norm_num) hd using 1
    ext i
    fin_cases i <;> simp [φ, Barrier.insideBall] <;> norm_num
  have hstationary : (![14, 7] + !![4, 2]ᵀ *ᵥ ![-(7 / 2)] : Fin 2 → ℝ) = 0 := by
    ext i
    fin_cases i <;> simp [Matrix.mulVec, dotProduct] <;> norm_num
  have hlevel : (!![4, 2] : Matrix (Fin 1) (Fin 2) ℝ) *ᵥ (!₂[5 / 4, 1 / 2] : Space 2).ofLp
      = !![4, 2] *ᵥ (!₂[1, 1] : Space 2).ofLp := by
    ext i
    fin_cases i
    simp [Matrix.mulVec, dotProduct, Fin.sum_univ_two]
    norm_num
  refine ⟨hx, hg, hstationary, duality_gap_law φ ?_ hconvex _ hx hgradient !![4, 2] _ _ hg
    hstationary !₂[5 / 4, 1 / 2] hlevel ?_⟩
  · show (0 : Extended) < real 3
    rw [← real_zero, real_lt_real]
    exact three_pos
  · refine List.forall_mem_singleton.mpr ⟨_, Quartic.hasValue_ball _, ?_⟩
    rw [← real_zero, real_le_real]
    norm_num

end InteriorPoint

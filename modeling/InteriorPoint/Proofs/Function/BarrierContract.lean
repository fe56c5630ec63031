import InteriorPoint.Proofs.Function.BarrierFormulas
import InteriorPoint.Proofs.Function.Contract
import InteriorPoint.Proofs.Scalar.Extended
import Mathlib.Analysis.Calculus.Deriv.Inv
import Mathlib.Analysis.Calculus.LineDeriv.Basic
import Mathlib.Analysis.SpecialFunctions.Log.Deriv

/-!
# The contract of a barrier

A barrier keeps the promise of its derivatives at every strictly feasible point at which its
components do. The value is infinite where a constraint is not negative, but a constraint is
continuous where it is differentiable, so near a strictly feasible point that case does not arise
and the value is the formula of `Barrier.hasValue_of_feasible`; the gradient and the Hessian are
the formulas too, and those are differentiated term by term over the list of constraints.

A barrier may be the objective of another one. As the law asks of an objective only what it says
of a barrier, it carries over to barriers nested to any depth.
-/

open Topology Matrix

namespace InteriorPoint

open Exact

variable {α : Type} [Scalar α] [Exact α] {n : ℕ}

/-! ## Sums over a list of constraints -/

section ListSum

variable {ι E F : Type*} [NormedAddCommGroup E] [NormedSpace ℝ E] [NormedAddCommGroup F]
  [NormedSpace ℝ F]

/-- The derivative of a sum over a list is the sum of the derivatives. -/
theorem hasFDerivAt_list_sum {l : List ι} {f : ι → E → F} {f' : ι → E →L[ℝ] F} {x : E}
    (h : ∀ i ∈ l, HasFDerivAt (f i) (f' i) x) :
    HasFDerivAt (fun y => (l.map fun i => f i y).sum) (l.map f').sum x := by
  induction l with
  | nil => exact hasFDerivAt_const 0 x
  | cons i l ih =>
    obtain ⟨hi, hl⟩ := List.forall_mem_cons.mp h
    simp only [List.map_cons, List.sum_cons]
    exact hi.add (ih hl)

/-- What holds near a point for each member of a list holds there for all of them. -/
theorem eventually_all_mem {X : Type*} {L : Filter X} (l : List ι) {p : ι → X → Prop}
    (h : ∀ i ∈ l, ∀ᶠ y in L, p i y) : ∀ᶠ y in L, ∀ i ∈ l, p i y :=
  (Filter.eventually_all_finite l.finite_toSet).mpr h

end ListSum

namespace Barrier

/-- The barrier is strictly feasible at a real point. -/
def StrictlyFeasibleAt (φ : Barrier α n) (x : Fin n → ℝ) : Prop :=
  (φ.isStrictlyFeasible (Exact.vec x).toArray).outcome = .ok true

/-! ## The gradient -/

/-- The functional of a multiple of a vector is the multiple of its functional. -/
theorem toDual_smul (s : ℝ) (v : Space n) :
    InnerProductSpace.toDual ℝ _ (s • v) = s • InnerProductSpace.toDual ℝ _ v := by
  rw [map_smulₛₗ, starRingEnd_apply, star_trivial]

/-- The logarithm of a constraint that is negative at `x`, differentiated. -/
theorem hasFDerivAt_log_neg {F : Space n → ℝ} {g x : Space n} (hF : HasGradientAt F g x)
    (hx : F x < 0) :
    HasFDerivAt (fun y => Real.log (-F y)) ((1 / F x) • InnerProductSpace.toDual ℝ _ g) x := by
  refine ((hF.hasFDerivAt.neg).log (neg_pos.mpr hx).ne').congr_fderiv ?_
  rw [Pi.neg_apply, inv_neg, neg_smul_neg, one_div]

/-- The formula for the value has the formula for the gradient as its gradient. -/
theorem hasGradientAt_formula {ι : Type*} {F₀ : Space n → ℝ} {g₀ x : Space n} {cs : List ι}
    {F : ι → Space n → ℝ} {g : ι → Space n} (t : ℝ)
    (h₀ : HasGradientAt F₀ g₀ x) (h : ∀ c ∈ cs, HasGradientAt (F c) (g c) x)
    (hneg : ∀ c ∈ cs, F c x < 0) :
    HasGradientAt (fun y => t * F₀ y - (cs.map fun c => Real.log (-F c y)).sum)
      (t • g₀ + (cs.map fun c => (-1 / F c x) • g c).sum) x := by
  have hlog : HasFDerivAt (fun y => (cs.map fun c => Real.log (-F c y)).sum)
      (cs.map fun c => (1 / F c x) • InnerProductSpace.toDual ℝ _ (g c)).sum x :=
    hasFDerivAt_list_sum fun c hc => hasFDerivAt_log_neg (h c hc) (hneg c hc)
  refine ((h₀.hasFDerivAt.const_mul t).sub hlog).congr_fderiv ?_
  rw [map_add, map_list_sum, List.map_map, sub_eq_add_neg, List.sum_neg, List.map_map]
  refine congrArg₂ (· + ·) (toDual_smul t g₀).symm ?_
  congr 1
  refine List.map_congr_left fun c _ => ?_
  rw [Function.comp_apply, Function.comp_apply, neg_div, neg_smul, map_neg, toDual_smul]

/-- **A barrier keeps the gradient contract.** At a strictly feasible point its gradient is the
gradient of its value, if each component's is. -/
theorem trueGradientAt_toSmooth (φ : Barrier α n) {x : Space n} (hx : φ.StrictlyFeasibleAt x)
    (h₀ : φ.objective.TrueGradientAt x) (h : ∀ c ∈ φ.constraints, c.TrueGradientAt x) :
    φ.toSmooth.TrueGradientAt x := by
  obtain ⟨t, -, ht⟩ := φ.exists_weight_eq
  obtain ⟨F₀, g₀, hF₀, hg₀, hd₀⟩ := h₀
  choose! F g hF hg hd using h
  have hneg : ∀ c ∈ φ.constraints, F c x < 0 :=
    (φ.isStrictlyFeasible_iff fun c hc => (hF c hc).self_of_nhds).mp hx
  -- near the point no constraint takes the branch with an infinite value
  have hnear : ∀ᶠ y in 𝓝 x, ∀ c ∈ φ.constraints, F c y < 0 :=
    eventually_all_mem _ fun c hc =>
      (hd c hc).continuousAt.eventually_lt continuousAt_const (hneg c hc)
  refine ⟨fun y => t * F₀ y - (φ.constraints.map fun c => Real.log (-F c y)).sum,
    t • g₀ + (φ.constraints.map fun c => (-1 / F c x) • g c).sum, ?_, ?_,
    hasGradientAt_formula t hd₀ hd hneg⟩
  · filter_upwards [hF₀, eventually_all_mem _ hF, hnear] with y h₀ hu hneg
    exact φ.hasValue_of_feasible ht h₀ hu hneg
  · rw [WithLp.ofLp_add, WithLp.ofLp_smul, WithLp.ofLp_listSum, List.map_map]
    exact φ.hasGradient_of_ne_zero ht hg₀ (fun c hc => (hF c hc).self_of_nhds)
      (fun c hc => (hneg c hc).ne) hg

/-! ## The Hessian -/

/-- The curvature of a constraint along a direction. -/
theorem curvature_mulVec (v : ℝ) (e h : Fin n → ℝ) (K : Matrix (Fin n) (Fin n) ℝ) :
    curvature v e K *ᵥ h = (1 / (v * v) * (e ⬝ᵥ h)) • e - (1 / v) • K *ᵥ h := by
  unfold curvature
  rw [Matrix.sub_mulVec, Matrix.smul_mulVec, Matrix.smul_mulVec,
    Matrix.vecMulVec_mulVec, op_smul_eq_smul, smul_smul]

/-- What a constraint contributes to the gradient, differentiated. -/
theorem hasFDerivAt_contribution {F : Space n → ℝ} {G : Space n → Space n} {x : Space n}
    {K : Matrix (Fin n) (Fin n) ℝ} (hF : HasGradientAt F (G x) x) (hne : F x ≠ 0)
    (hG : HasFDerivAt G (Matrix.toEuclideanCLM (𝕜 := ℝ) K) x) :
    HasFDerivAt (fun y => (-1 / F y) • G y)
      (Matrix.toEuclideanCLM (𝕜 := ℝ) (curvature (F x) (G x) K)) x := by
  have hfactor : HasFDerivAt (fun y => -1 / F y)
      ((1 / (F x * F x)) • InnerProductSpace.toDual ℝ _ (G x)) x := by
    have h := ((hasDerivAt_inv hne).comp_hasFDerivAt x hF.hasFDerivAt).neg
    refine (h.congr_fderiv ?_).congr_of_eventuallyEq (.of_forall fun y => ?_)
    · rw [neg_smul, neg_neg, sq, one_div]
    · show -1 / F y = -(F y)⁻¹
      rw [neg_div, one_div]
  refine (hfactor.smul hG).congr_fderiv ?_
  ext h i
  have hinner : inner ℝ (G x) h = (G x).ofLp ⬝ᵥ h.ofLp := by
    rw [EuclideanSpace.inner_eq_star_dotProduct, star_trivial, dotProduct_comm]
  rw [Matrix.ofLp_toEuclideanCLM, curvature_mulVec, ← hinner]
  show -1 / F x * (K *ᵥ h) i + 1 / (F x * F x) * inner ℝ (G x) h * G x i
    = 1 / (F x * F x) * inner ℝ (G x) h * G x i - 1 / F x * (K *ᵥ h) i
  ring

/-- **A barrier keeps the Hessian contract.** At a strictly feasible point its Hessian is the
derivative of its gradient, if each component's is and the gradients of the constraints are those
of their values. -/
theorem trueHessianAt_toSmooth (φ : Barrier α n) {x : Space n} (hx : φ.StrictlyFeasibleAt x)
    (h₀ : φ.objective.TrueHessianAt x)
    (h : ∀ c ∈ φ.constraints, c.TrueGradientAt x ∧ c.TrueHessianAt x) :
    φ.toSmooth.TrueHessianAt x := by
  obtain ⟨t, -, ht⟩ := φ.exists_weight_eq
  obtain ⟨G₀, K₀, hG₀, hK₀, hd₀⟩ := h₀
  choose! hgrad hhess using h
  choose! F g hF hg hd using hgrad
  choose! G K hG hK hdG using hhess
  have hneg : ∀ c ∈ φ.constraints, F c x < 0 :=
    (φ.isStrictlyFeasible_iff fun c hc => (hF c hc).self_of_nhds).mp hx
  have hnear : ∀ᶠ y in 𝓝 x, ∀ c ∈ φ.constraints, F c y < 0 :=
    eventually_all_mem _ fun c hc =>
      (hd c hc).continuousAt.eventually_lt continuousAt_const (hneg c hc)
  -- the two laws of a constraint speak of one gradient at `x`
  have hgG : ∀ c ∈ φ.constraints, g c = G c x := fun c hc =>
    WithLp.ofLp_injective 2 (vec_injective (α := α)
      (Except.ok.inj ((hg c hc).symm.trans (hG c hc).self_of_nhds)))
  refine ⟨fun y => t • G₀ y + (φ.constraints.map fun c => (-1 / F c y) • G c y).sum,
    t • K₀ + (φ.constraints.map fun c => curvature (F c x) (G c x) (K c)).sum, ?_, ?_, ?_⟩
  · filter_upwards [hG₀, eventually_all_mem _ hF, eventually_all_mem _ hG, hnear]
      with y h₀ hu hd hneg
    rw [WithLp.ofLp_add, WithLp.ofLp_smul, WithLp.ofLp_listSum, List.map_map]
    exact φ.hasGradient_of_ne_zero ht h₀ hu (fun c hc => (hneg c hc).ne) hd
  · exact φ.hasHessian_of_ne_zero ht hK₀ (fun c hc => (hF c hc).self_of_nhds)
      (fun c hc => (hneg c hc).ne) (fun c hc => (hG c hc).self_of_nhds) hK
  · rw [map_add, map_smul, map_list_sum, List.map_map]
    exact (hd₀.const_smul t).add (hasFDerivAt_list_sum fun c hc =>
      hasFDerivAt_contribution (hgG c hc ▸ hd c hc) (hneg c hc).ne (hdG c hc))

/-! ## Barriers over barriers -/

/-- **A tower of barriers**: `Tower ground φs f` says that `f` is made from the function `ground`
by taking what there is as the objective of a barrier, again and again. The barriers are `φs`, the
outermost first. -/
inductive Tower (ground : Smooth α n) : List (Barrier α n) → Smooth α n → Prop
  /-- Without barriers there is the ground. -/
  | ground : Tower ground [] ground
  /-- A barrier stands on its objective. -/
  | barrier {φs : List (Barrier α n)} (φ : Barrier α n) (h : Tower ground φs φ.objective) :
      Tower ground (φ :: φs) φ.toSmooth

/-- A barrier that keeps its objective inside the quartic ball. -/
noncomputable def insideBall (t : ℝ) (ht : 0 ≤ t) (f : Smooth α 2) : Barrier α 2 where
  weight := real t
  objective := f
  constraints := [Quartic.ball]
  weight_finite := isFinite_real t
  weight_not_neg := by rwa [real_lt_zero, not_lt]

/-- The points inside the quartic ball are strictly feasible. -/
theorem strictlyFeasibleAt_insideBall {t : ℝ} (ht : 0 ≤ t) (f : Smooth α 2) {x : Space 2}
    (hx : x 0 * x 0 * (x 0 * x 0) + x 1 * x 1 < 4) : (insideBall t ht f).StrictlyFeasibleAt x := by
  refine ((insideBall t ht f).isStrictlyFeasible_iff (x := x.ofLp)
    (u := fun _ => x 0 * x 0 * (x 0 * x 0) + x 1 * x 1 - 4) ?_).mpr ?_
  · exact List.forall_mem_singleton.mpr (Quartic.hasValue_ball x)
  · exact List.forall_mem_singleton.mpr (sub_neg.mpr hx)

end Barrier

open Barrier

/-! ## The laws over the extended reals -/

/-- **The gradient of a barrier is the gradient of its value**, at every point that is strictly
feasible and at which the gradients of the objective and of all constraints are the gradients of
their values. The same holds of a tower of barriers of any height, at the points that are strictly
feasible for each barrier in it. -/
theorem barrier_gradient_law :
    (∀ (φ : Barrier Extended n) (x : Space n), φ.StrictlyFeasibleAt x →
      φ.objective.TrueGradientAt x → (∀ c ∈ φ.constraints, c.TrueGradientAt x) →
      φ.toSmooth.TrueGradientAt x) ∧
    ∀ (ground f : Smooth Extended n) (φs : List (Barrier Extended n)) (x : Space n),
      Tower ground φs f → ground.TrueGradientAt x →
      (∀ φ ∈ φs, φ.StrictlyFeasibleAt x ∧ ∀ c ∈ φ.constraints, c.TrueGradientAt x) →
      f.TrueGradientAt x := by
  refine ⟨fun φ x hx h₀ h => φ.trueGradientAt_toSmooth hx h₀ h, ?_⟩
  intro ground f φs x hf hground hφs
  induction hf with
  | ground => exact hground
  | barrier φ _ ih =>
    obtain ⟨⟨hx, hc⟩, hrest⟩ := List.forall_mem_cons.mp hφs
    exact φ.trueGradientAt_toSmooth hx (ih hrest) hc

/-- Two barriers inside the quartic ball, one over the other, at a point with both coordinates
one. -/
theorem barrier_gradient_law_insideBall :
    let inner : Barrier Extended 2 := insideBall (1 / 2) (by norm_num) Quartic.ball
    let outer : Barrier Extended 2 := insideBall 3 (by norm_num) inner.toSmooth
    (inner.StrictlyFeasibleAt (!₂[1, 1] : Space 2) ∧
      outer.StrictlyFeasibleAt (!₂[1, 1] : Space 2)) ∧
      outer.toSmooth.TrueGradientAt !₂[1, 1] := by
  intro inner outer
  have hin : inner.StrictlyFeasibleAt (!₂[1, 1] : Space 2) :=
    strictlyFeasibleAt_insideBall _ _ (by norm_num)
  have hout : outer.StrictlyFeasibleAt (!₂[1, 1] : Space 2) :=
    strictlyFeasibleAt_insideBall _ _ (by norm_num)
  have hball (x : Space 2) : ∀ c ∈ [(Quartic.ball : Smooth Extended 2)], c.TrueGradientAt x :=
    List.forall_mem_singleton.mpr (Quartic.trueGradientAt_ball x)
  refine ⟨⟨hin, hout⟩, barrier_gradient_law.2 Quartic.ball _ [outer, inner] _
    (.barrier outer (.barrier inner .ground)) (Quartic.trueGradientAt_ball _) ?_⟩
  exact List.forall_mem_cons.mpr ⟨⟨hout, hball _⟩, List.forall_mem_singleton.mpr ⟨hin, hball _⟩⟩

/-- **The Hessian of a barrier is the derivative of its gradient**, at every point that is
strictly feasible, for components whose gradients are those of their values near the point and
whose Hessians there are the derivatives of their gradients: the gradient of the barrier is a
differentiable vector field near the point, and the Hessian evaluates to its matrix, whose entry
`(j, k)` is the derivative of component `j` along coordinate `k`. -/
theorem barrier_hessian_law (φ : Barrier Extended n) (x : Space n) (hx : φ.StrictlyFeasibleAt x)
    (h : ∀ f ∈ φ.objective :: φ.constraints,
      (∀ᶠ y in 𝓝 x, f.TrueGradientAt y) ∧ f.TrueHessianAt x) :
    ∃ (G : Space n → Space n) (K : Matrix (Fin n) (Fin n) ℝ),
      (∀ᶠ y : Space n in 𝓝 x, φ.toSmooth.HasGradient y (G y)) ∧ φ.toSmooth.HasHessian x K ∧
      HasFDerivAt G (Matrix.toEuclideanCLM (𝕜 := ℝ) K) x ∧
      ∀ j k, HasLineDerivAt ℝ (fun y => G y j) (K j k) x (EuclideanSpace.single k 1) := by
  obtain ⟨⟨-, h₀⟩, hc⟩ := List.forall_mem_cons.mp h
  obtain ⟨G, K, hG, hK, hd⟩ :=
    φ.trueHessianAt_toSmooth hx h₀ fun c hc' => ⟨(hc c hc').1.self_of_nhds, (hc c hc').2⟩
  refine ⟨G, K, hG, hK, hd, fun j k => ?_⟩
  have hcoord : HasFDerivAt (fun y => G y j)
      ((EuclideanSpace.proj j).comp (Matrix.toEuclideanCLM (𝕜 := ℝ) K)) x :=
    (EuclideanSpace.proj (𝕜 := ℝ) j).hasFDerivAt.comp x hd
  have hline := hcoord.hasLineDerivAt (EuclideanSpace.single k 1)
  have hentry : ((EuclideanSpace.proj j).comp (Matrix.toEuclideanCLM (𝕜 := ℝ) K))
      (EuclideanSpace.single k 1) = K j k := by
    show (K *ᵥ (EuclideanSpace.single k (1 : ℝ)).ofLp) j = K j k
    rw [PiLp.ofLp_single, Matrix.mulVec_single_one]
    rfl
  rwa [hentry] at hline

/-- The Hessian of a barrier inside the quartic ball, at a point with both coordinates one. -/
theorem barrier_hessian_law_insideBall :
    let φ : Barrier Extended 2 := insideBall 3 (by norm_num) Quartic.ball
    φ.StrictlyFeasibleAt (!₂[1, 1] : Space 2) ∧ φ.toSmooth.TrueHessianAt !₂[1, 1] := by
  intro φ
  have hx : φ.StrictlyFeasibleAt (!₂[1, 1] : Space 2) :=
    strictlyFeasibleAt_insideBall _ _ (by norm_num)
  have hball : (∀ᶠ y in 𝓝 !₂[1, 1], (Quartic.ball : Smooth Extended 2).TrueGradientAt y) ∧
      (Quartic.ball : Smooth Extended 2).TrueHessianAt !₂[1, 1] :=
    ⟨.of_forall Quartic.trueGradientAt_ball, Quartic.trueHessianAt_ball _⟩
  obtain ⟨G, K, hG, hK, hd, -⟩ := barrier_hessian_law φ _ hx
    (List.forall_mem_cons.mpr ⟨hball, List.forall_mem_singleton.mpr hball⟩)
  exact ⟨hx, G, K, hG, hK, hd⟩

end InteriorPoint

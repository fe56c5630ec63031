import InteriorPoint.Proofs.Function.RealBarrier
import Mathlib.Data.List.Perm.Basic

/-!
# Constraints as a list

A barrier keeps its constraints in a list and goes through it three times. What it comes to does not
depend on the order of the list: a violated constraint makes the value infinite wherever it stands,
and otherwise each constraint adds a term of its own to a sum. Nor does it depend on how the list is
split over nested barriers: a barrier of weight one over another one comes to the same as a single
barrier with both lists of constraints, one after the other (`constraint_list_law`).

Sums of real numbers, infinities and undefined values do not depend on the order of their terms
either, so both hold of the derivatives outside the domain as well. The value is where infinities
are in the way: taken as an objective, the infinity of the inner barrier has to get past the
logarithms of the outer one, and it does so because these are real.
-/

namespace InteriorPoint

open Exact Scalar

variable {n : ℕ}

/-- **Two functions are the same at a vector**: they evaluate alike, to a value, a gradient and a
Hessian, or to failures. -/
structure Smooth.SameAt {α : Type} (f g : Smooth α n) (x : Vec α n) : Prop where
  /-- The values are the same. -/
  value : (f.value x.toArray).outcome = (g.value x.toArray).outcome
  /-- The gradients are the same. -/
  gradient : (f.gradient x.toArray).outcome = (g.gradient x.toArray).outcome
  /-- The Hessians are the same. -/
  hessian : (f.hessian x.toArray).outcome = (g.hessian x.toArray).outcome

/-- A length that was compared once need not be compared again. -/
theorem Smooth.point_bind_point {α β γ : Type} (x : Array α) (f : Answer α β)
    (k : β → Answer α γ) :
    (point n x >>= fun _ => (point n x >>= fun _ => f) >>= k) = point n x >>= fun _ => f >>= k := by
  by_cases hx : x.size = n
  · simp only [point, dif_pos hx, pure_bind]
  · rw [point_of_size_ne hx]
    rfl

namespace Barrier

/-! ## Construction -/

section Construction

variable {α : Type} [Scalar α]

omit [Scalar α] in
/-- Functions of the right number of variables are taken over. -/
theorem mapM_component_mk (cs : List (Smooth α n)) :
    (cs.map (Sigma.mk n)).mapM (component n) = .ok cs := by
  induction cs with
  | nil => rfl
  | cons c cs ih =>
    have hc : component n ⟨n, c⟩ = .ok c := dif_pos rfl
    rw [List.map_cons, List.mapM_cons, hc, ih]
    rfl

/-- **Every barrier is composed** of its parts. -/
theorem compose_parts (φ : Barrier α n) :
    compose φ.weight φ.objective (φ.constraints.map (Sigma.mk n)) = .ok φ := by
  unfold compose ofWeight
  rw [dif_pos φ.weight_finite, dif_neg φ.weight_not_neg, mapM_component_mk]
  rfl

/-- The barrier with other constraints. -/
def withConstraints (φ : Barrier α n) (cs : List (Smooth α n)) : Barrier α n :=
  { φ with constraints := cs }

/-- **A barrier of weight one**, for instance over another barrier. -/
def unweighted [Exact α] (f : Smooth α n) (cs : List (Smooth α n)) : Barrier α n where
  weight := 1
  objective := f
  constraints := cs
  weight_finite := by
    rw [← real_one]
    exact isFinite_real 1
  weight_not_neg := by
    rw [← real_one, real_lt_zero]
    exact zero_le_one.not_gt

end Construction

variable {φ : Barrier Extended n} {cs : List (Smooth Extended n)}

/-! ## Nesting -/

/-- **The gradient of nested barriers** is evaluated as that of the single one, at every point. -/
theorem gradient_nested (φ : Barrier Extended n) (cs : List (Smooth Extended n)) :
    (unweighted φ.toSmooth cs).gradient = (φ.withConstraints (φ.constraints ++ cs)).gradient := by
  have hscale : ∀ g : Vec Extended n, Vec.scale g 1 = g := fun g => Vec.ext_get fun i => by
    rw [Vec.get_scale, Extended.mul_one]
  funext x
  have hinner : (unweighted φ.toSmooth cs).gradient x = _ := Smooth.point_bind_point x _ _
  rw [hinner, gradient]
  refine bind_congr fun _ => ?_
  rw [bind_assoc]
  refine bind_congr fun g => ?_
  simp only [unweighted, withConstraints, hscale, List.foldlM_append]

/-- **The Hessian of nested barriers** is evaluated as that of the single one, at every point. -/
theorem hessian_nested (φ : Barrier Extended n) (cs : List (Smooth Extended n)) :
    (unweighted φ.toSmooth cs).hessian = (φ.withConstraints (φ.constraints ++ cs)).hessian := by
  have hscale : ∀ H : Mat Extended n n, Mat.mapEntries (· * 1) H = H :=
    fun H => Mat.ext_entry fun i j => by rw [Mat.entry_mapEntries, Extended.mul_one]
  funext x
  have hinner : (unweighted φ.toSmooth cs).hessian x = _ := Smooth.point_bind_point x _ _
  rw [hinner, hessian]
  refine bind_congr fun _ => ?_
  rw [bind_assoc]
  refine bind_congr fun H => ?_
  simp only [unweighted, withConstraints, hscale, List.foldlM_append]

/-- Logarithms of real constraints leave an infinity as it is. -/
theorem foldl_infinity {u : Smooth Extended n → ℝ} (hu : ∀ c ∈ cs, u c < 0) :
    cs.foldl (fun v c => v - log (-(real (u c) : Extended))) infinity = infinity := by
  induction cs with
  | nil => rfl
  | cons c cs ih =>
    obtain ⟨hc, hcs⟩ := List.forall_mem_cons.mp hu
    rw [List.foldl_cons, neg_real, log_real (neg_pos.mpr hc),
      InfinityRules.infinity_sub (isFinite_real _)]
    exact ih hcs

/-- **The value of nested barriers** is that of the single one, infinite or not. -/
theorem outcome_value_nested {x : Fin n → ℝ}
    (h : ∀ f ∈ φ.objective :: (φ.constraints ++ cs), ∃ v, f.HasValue x v) :
    ((unweighted φ.toSmooth cs).value (vec x).toArray).outcome
      = ((φ.withConstraints (φ.constraints ++ cs)).value (vec x).toArray).outcome := by
  choose! u hu using h
  obtain ⟨h₀, hu⟩ := List.forall_mem_cons.mp hu
  obtain ⟨hu₁, hu₂⟩ := List.forall_mem_append.mp hu
  have hinner := outcome_value_eq_foldl h₀ hu₁
  have hsingle := outcome_value_eq_foldl (φ := φ.withConstraints (φ.constraints ++ cs)) h₀ hu
  have hnested := outcome_value_eq_foldl (φ := unweighted φ.toSmooth cs) hinner hu₂
  rw [hnested, hsingle]
  simp only [unweighted, withConstraints, violates_real, Extended.one_mul, List.mem_append,
    or_and_right, exists_or]
  by_cases houter : ∃ c ∈ cs, 0 ≤ u c
  · rw [if_pos houter, if_pos (Or.inr houter)]
  · rw [if_neg houter]
    simp only [houter, or_false]
    by_cases hviolated : ∃ c ∈ φ.constraints, 0 ≤ u c
    · rw [if_pos hviolated, if_pos hviolated]
      refine congrArg Except.ok (foldl_infinity fun c hc => ?_)
      exact not_le.mp fun hle => houter ⟨c, hc, hle⟩
    · rw [if_neg hviolated, if_neg hviolated, List.foldl_append]

/-- **Nested barriers are the same as the single one** at every real point at which the values of
the components are real. -/
theorem sameAt_nested {x : Fin n → ℝ}
    (h : ∀ f ∈ φ.objective :: (φ.constraints ++ cs), ∃ v, f.HasValue x v) :
    (unweighted φ.toSmooth cs).toSmooth.SameAt (φ.withConstraints (φ.constraints ++ cs)).toSmooth
      (vec x) where
  value := outcome_value_nested h
  gradient := congrArg Answer.outcome (congrFun (gradient_nested φ cs) _)
  hessian := congrArg Answer.outcome (congrFun (hessian_nested φ cs) _)

/-- **Strictly feasible for the single barrier** are the points that are so for both. -/
theorem strictlyFeasibleAt_append {x : Fin n → ℝ} :
    (φ.withConstraints (φ.constraints ++ cs)).StrictlyFeasibleAt x ↔
      φ.StrictlyFeasibleAt x ∧ (unweighted φ.toSmooth cs).StrictlyFeasibleAt x := by
  unfold StrictlyFeasibleAt
  rw [isStrictlyFeasible_eq_ok_true, isStrictlyFeasible_eq_ok_true, isStrictlyFeasible_eq_ok_true]
  exact List.forall_mem_append

/-! ## Order -/

/-- What two constraints add to a gradient does not depend on their order. -/
theorem addScaled_left_comm (s t : Extended) (v w g : Vec Extended n) :
    Vec.addScaled s v (Vec.addScaled t w g) = Vec.addScaled t w (Vec.addScaled s v g) := by
  refine Vec.ext_get fun i => ?_
  simp only [Vec.get_addScaled]
  exact Extended.add_left_comm _ _ _

/-- What two constraints add to a Hessian does not depend on their order. -/
theorem addCurvature_right_comm (H K L : Mat Extended n n) (u v : Extended) (d e : Vec Extended n) :
    addCurvature (addCurvature H u d K) v e L = addCurvature (addCurvature H v e L) u d K := by
  refine Mat.ext_entry fun i j => ?_
  simp only [addCurvature, Mat.entry_of]
  exact Extended.add_right_comm _ _ _

/-- **The order of the constraints does not matter** at any vector at which the components
evaluate. -/
theorem sameAt_of_perm {ds : List (Smooth Extended n)} {x : Vec Extended n}
    (hperm : φ.constraints.Perm ds) (h : ∀ f ∈ φ.objective :: φ.constraints, f.EvaluatesAt x) :
    (φ.withConstraints ds).toSmooth.SameAt φ.toSmooth x := by
  obtain ⟨⟨⟨v₀, hv₀⟩, ⟨g₀, hg₀⟩, ⟨H₀, hH₀⟩⟩, h⟩ := List.forall_mem_cons.mp h
  have : Nonempty Extended := ⟨v₀⟩
  obtain ⟨u, d, K, hu, hd, hK⟩ := exists_evaluations h
  have hds : ∀ c ∈ ds, c ∈ φ.constraints := fun c hc => hperm.mem_iff.mpr hc
  have hu' : ∀ c ∈ ds, (c.value x.toArray).outcome = .ok (u c) := fun c hc => hu c (hds c hc)
  have hd' : ∀ c ∈ ds, (c.gradient x.toArray).outcome = .ok (d c) := fun c hc => hd c (hds c hc)
  have hK' : ∀ c ∈ ds, (c.hessian x.toArray).outcome = .ok (K c) := fun c hc => hK c (hds c hc)
  refine ⟨?_, ?_, ?_⟩
  · refine (outcome_value_eq_foldl (φ := φ.withConstraints ds) hv₀ hu').trans
      (Eq.trans ?_ (outcome_value_eq_foldl hv₀ hu).symm)
    have hviolated : (∃ c ∈ ds, violates (u c)) ↔ ∃ c ∈ φ.constraints, violates (u c) :=
      exists_congr fun c => and_congr_left fun _ => hperm.mem_iff.symm
    simp only [withConstraints, hviolated]
    rw [hperm.foldl_eq' fun c _ c' _ v => Extended.sub_right_comm _ _ _]
  · refine (outcome_gradient_eq_foldl (φ := φ.withConstraints ds) hg₀ hu' hd').trans
      (Eq.trans ?_ (outcome_gradient_eq_foldl hg₀ hu hd).symm)
    rw [hperm.foldl_eq' fun c _ c' _ g => addScaled_left_comm _ _ _ _ _]
    rfl
  · refine (outcome_hessian_eq_foldl (φ := φ.withConstraints ds) hH₀ hu' hd' hK').trans
      (Eq.trans ?_ (outcome_hessian_eq_foldl hH₀ hu hd hK).symm)
    rw [hperm.foldl_eq' fun c _ c' _ H => addCurvature_right_comm _ _ _ _ _ _ _]
    rfl

end Barrier

open Barrier

/-- **The law of constraint lists.** A barrier `φ` is given more constraints `cs`, by a barrier of
weight one over it or behind its own, and all components are real at `x`. Where `x` is strictly
feasible for both, the nested barriers have the same real value, gradient and Hessian as the single
one. Where it is not, both values are infinite. The derivatives are the same everywhere.

With its constraints in another order a barrier evaluates alike, to infinities and undefined values
as well, at every vector at which its components evaluate. -/
theorem constraint_list_law :
    (∀ (φ : Barrier Extended n) (cs : List (Smooth Extended n)) (x : Fin n → ℝ),
      (∀ f ∈ φ.objective :: (φ.constraints ++ cs), f.RealAt x) →
      ∃ nested single, compose 1 φ.toSmooth (cs.map (Sigma.mk n)) = .ok nested ∧
        compose φ.weight φ.objective ((φ.constraints ++ cs).map (Sigma.mk n)) = .ok single ∧
        (φ.StrictlyFeasibleAt x ∧ nested.StrictlyFeasibleAt x → ∃ v g K,
          (nested.toSmooth.HasValue x v ∧ nested.toSmooth.HasGradient x g ∧
            nested.toSmooth.HasHessian x K) ∧
          single.toSmooth.HasValue x v ∧ single.toSmooth.HasGradient x g ∧
            single.toSmooth.HasHessian x K) ∧
        (¬ (φ.StrictlyFeasibleAt x ∧ nested.StrictlyFeasibleAt x) →
          (nested.value (vec x).toArray).outcome = .ok infinity ∧
          (single.value (vec x).toArray).outcome = .ok infinity) ∧
        nested.gradient = single.gradient ∧ nested.hessian = single.hessian) ∧
    ∀ (φ : Barrier Extended n) (cs : List (Smooth Extended n)) (x : Vec Extended n),
      φ.constraints.Perm cs → (∀ f ∈ φ.objective :: φ.constraints, f.EvaluatesAt x) →
      ∃ ψ, compose φ.weight φ.objective (cs.map (Sigma.mk n)) = .ok ψ ∧
        ψ.toSmooth.SameAt φ.toSmooth x := by
  refine ⟨fun φ cs x h => ?_, fun φ cs x hperm h =>
    ⟨_, compose_parts (φ.withConstraints cs), sameAt_of_perm hperm h⟩⟩
  have hsame := sameAt_nested fun f hf => (h f hf).value
  refine ⟨_, _, compose_parts (unweighted φ.toSmooth cs),
    compose_parts (φ.withConstraints (φ.constraints ++ cs)), fun hx => ?_, fun hx => ?_,
    gradient_nested φ cs, hessian_nested φ cs⟩
  · obtain ⟨⟨v, hv⟩, ⟨g, hg⟩, ⟨K, hK⟩⟩ :=
      realAt_toSmooth (φ := φ.withConstraints (φ.constraints ++ cs)) h
        (strictlyFeasibleAt_append.mpr hx)
    exact ⟨v, g, K, ⟨hsame.value.trans hv, hsame.gradient.trans hg, hsame.hessian.trans hK⟩,
      hv, hg, hK⟩
  · have hsingle := outcome_value_of_not_strictlyFeasibleAt
      (φ := φ.withConstraints (φ.constraints ++ cs)) (fun f hf => (h f hf).value)
      (strictlyFeasibleAt_append.not.mpr hx)
    exact ⟨hsame.value.trans hsingle, hsingle⟩

/-! ### A segment -/

/-- An affine function is real at every point. -/
theorem Quadratic.realAt_affine {α : Type} [Scalar α] [Exact α] (b c : ℝ) (x : Fin 1 → ℝ) :
    (affine b c : Quadratic α 1).toSmooth.RealAt x :=
  have h := formulas_affine b c x
  ⟨⟨_, h.1⟩, ⟨_, h.2.1⟩, ⟨_, h.2.2⟩⟩

/-- The constraint of the points above minus one. -/
noncomputable def Barrier.aboveMinusOne : Smooth Extended 1 := (Quadratic.affine (-1) (-1)).toSmooth

/-- The law for the points below one and above minus one, at a point between and at a point outside,
where the infinity of the half-line gets past the other constraint. -/
theorem constraint_list_law_segment :
    (∀ f ∈ halfLine.objective :: (halfLine.constraints ++ [aboveMinusOne]), f.RealAt ![0]) ∧
    ∃ nested, compose 1 halfLine.toSmooth [⟨1, aboveMinusOne⟩] = .ok nested ∧
      (halfLine.StrictlyFeasibleAt ![0] ∧ nested.StrictlyFeasibleAt ![0]) ∧
      nested.toSmooth.RealAt ![0] ∧
      (nested.value (vec ![2] : Vec Extended 1).toArray).outcome = .ok infinity ∧
      ∃ ψ, compose halfLine.weight halfLine.objective
          [⟨1, aboveMinusOne⟩, ⟨1, (Quadratic.affine 1 (-1)).toSmooth⟩] = .ok ψ ∧
        ψ.toSmooth.SameAt (halfLine.withConstraints
          [(Quadratic.affine 1 (-1)).toSmooth, aboveMinusOne]).toSmooth (vec ![2]) := by
  have hreal : ∀ x, ∀ f ∈ halfLine.objective :: (halfLine.constraints ++ [aboveMinusOne]),
      f.RealAt x := fun x => List.forall_mem_cons.mpr ⟨Quadratic.realAt_affine _ _ x,
    List.forall_mem_cons.mpr ⟨Quadratic.realAt_affine _ _ x,
      List.forall_mem_singleton.mpr (Quadratic.realAt_affine _ _ x)⟩⟩
  obtain ⟨nested, single, hnested, hsingle, hinside, -, -, -⟩ :=
    constraint_list_law.1 halfLine [aboveMinusOne] ![0] (hreal _)
  obtain ⟨nested', single', hnested', -, -, houtside, -, -⟩ :=
    constraint_list_law.1 halfLine [aboveMinusOne] ![2] (hreal _)
  obtain rfl := Except.ok.inj (hnested.symm.trans hnested')
  obtain rfl := Except.ok.inj
    (hnested.symm.trans (compose_parts (unweighted halfLine.toSmooth [aboveMinusOne])))
  have hfeasible : halfLine.StrictlyFeasibleAt ![0] ∧
      (unweighted halfLine.toSmooth [aboveMinusOne]).StrictlyFeasibleAt ![0] := by
    refine ⟨(isStrictlyFeasible_eq_ok_true _ _).mpr (List.forall_mem_singleton.mpr ?_),
      (isStrictlyFeasible_eq_ok_true _ _).mpr (List.forall_mem_singleton.mpr ?_)⟩
    · exact ⟨_, (Quadratic.formulas_affine 1 (-1) ![0]).1, real_lt_zero.mpr (by norm_num)⟩
    · exact ⟨_, (Quadratic.formulas_affine (-1) (-1) ![0]).1, real_lt_zero.mpr (by norm_num)⟩
  have hinfeasible : ¬ halfLine.StrictlyFeasibleAt ![2] :=
    (violatedAt_iff_not_strictlyFeasibleAt fun c hc => (hreal ![2] c
      (List.mem_cons_of_mem _ (List.mem_append_left _ hc))).value).mp violatedAt_halfLine
  refine ⟨hreal _, _, hnested, hfeasible, ?_, (houtside fun h => hinfeasible h.1).1, ?_⟩
  · obtain ⟨v, g, K, ⟨hv, hg, hK⟩, -⟩ := hinside hfeasible
    exact ⟨⟨v, hv⟩, ⟨g, hg⟩, ⟨K, hK⟩⟩
  · exact constraint_list_law.2 (halfLine.withConstraints _) _ _ (List.Perm.swap _ _ _)
      fun f hf => (hreal ![2] f hf).evaluatesAt

end InteriorPoint

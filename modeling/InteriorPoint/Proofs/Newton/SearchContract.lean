import InteriorPoint.Proofs.Newton.Feasibility

/-!
# The contract of a line search

A line search has two ways to stop, and whatever barrier it works on, it comes to one of them: its
step lengths are the powers `βᵏ` of a factor below one, so at the latest a power is no longer above
the floor. It returns the first power that does not lead too high or is not above the floor, and the
last point that it evaluated is the point that the step leads to, although the two are computed in
different ways (`line_search_law`).

If the step length is above the floor, the last point was not too high. Outside its domain a barrier
is infinite, which is higher than every real bound, so the point is strictly feasible.
-/

open scoped Matrix

namespace InteriorPoint

open Exact Scalar

variable {n : ℕ}

namespace Extended

/-- What is defined and does not exceed a real number is at most this number. -/
theorem not_real_lt_iff {r : ℝ} {y : Extended} (hy : y ≠ undefined) :
    ¬ Exact.real r < y ↔ y ≤ Exact.real r := by
  cases y with
  | real u => exact (not_lt : ¬ r < u ↔ u ≤ r)
  | infinite s => exact Bool.not_eq_false s ▸ Iff.rfl
  | undefined => exact absurd rfl hy

end Extended

namespace Barrier

variable {φ : Barrier Extended n} {x : Fin n → ℝ}
  (h : ∀ f ∈ φ.objective :: φ.constraints, ∃ u, f.HasValue x u)

include h

/-- The value of a barrier of real components is defined. -/
theorem exists_outcome_value_ne_undefined :
    ∃ y, (φ.value (vec x).toArray).outcome = .ok y ∧ y ≠ .undefined := by
  by_cases hx : φ.StrictlyFeasibleAt x
  · obtain ⟨F, hF⟩ := exists_hasValue h hx
    exact ⟨_, hF, fun hreal => nomatch hreal⟩
  · exact ⟨_, outcome_value_of_not_strictlyFeasibleAt h hx, fun hinfinite => nomatch hinfinite⟩

/-- **Only strictly feasible points are below a real bound.** -/
theorem strictlyFeasibleAt_of_value_le {r : ℝ} {y : Extended}
    (hy : (φ.value (vec x).toArray).outcome = .ok y) (hle : y ≤ real r) :
    φ.StrictlyFeasibleAt x ∧ ∃ F, φ.toSmooth.HasValue x F ∧ F ≤ r := by
  by_cases hx : φ.StrictlyFeasibleAt x
  · obtain ⟨F, hF⟩ := exists_hasValue h hx
    obtain rfl := Except.ok.inj (hF.symm.trans hy)
    exact ⟨hx, F, hF, real_le_real.mp hle⟩
  · obtain rfl := Except.ok.inj ((outcome_value_of_not_strictlyFeasibleAt h hx).symm.trans hy)
    exact nomatch (hle : false = true)

end Barrier

/-- **The point that a step leads to** is the one at which the line search evaluated. -/
theorem Newton.move_vec {α : Type} [Scalar α] [Exact α] (s : ℝ) (v x : Fin n → ℝ) :
    move (real s) (vec v : Vec α n) (vec x : Vec α n).toArray = pure (vec (x + s • v)).toArray := by
  unfold move
  rw [dif_pos (vec x : Vec α n).size_toArray, add_comm, ← addScaled_vec]

namespace LineSearch

/-- The line search with given real parameters. -/
def ofReals {α : Type} [Scalar α] [Exact α] (fraction factor floor : ℝ) (trials : ℕ) :
    LineSearch α where
  fraction := real fraction
  factor := real factor
  floor := real floor
  trials := trials

variable {f : Smooth Extended n} {x v : Fin n → ℝ} {a β c F slope : ℝ} {trials : ℕ}

theorem lengthAfter_ofReals {α : Type} [Scalar α] [Exact α] (a β c : ℝ) (trials k : ℕ) :
    (ofReals a β c trials : LineSearch α).lengthAfter 1 k = real (β ^ k) := by
  rw [← real_one, lengthAfter_real (l := ofReals a β c trials) rfl, one_mul]

/-- **Where a line search stops**: the value at the trial point is at most the bound, or the step
length is not above the floor. -/
theorem stopsAt_ofReals_iff {s : ℝ}
    (hf : ∃ y, (f.value (vec (x + s • v)).toArray).outcome = .ok y ∧ y ≠ .undefined) :
    (ofReals a β c trials).StopsAt f (vec x) (vec v) (real F) (real slope) (real s) ↔
      (∃ y, (f.value (vec (x + s • v)).toArray).outcome = .ok y ∧
        y ≤ real (F + a * s * slope)) ∨ s ≤ c := by
  obtain ⟨y, hy, hdefined⟩ := hf
  have hbound : real F + (ofReals a β c trials : LineSearch Extended).fraction * real s
      * real slope = real (F + a * s * slope) := by
    show real F + real a * real s * real slope = _
    rw [mul_real, mul_real, add_real]
  have hfloor : (ofReals a β c trials : LineSearch Extended).floor < real s ↔ c < s := real_lt_real
  unfold StopsAt
  rw [trial_vec, hbound, hfloor, hy]
  simp only [Except.ok.injEq, exists_eq_left', not_and_or, not_lt,
    Extended.not_real_lt_iff hdefined]

end LineSearch

open LineSearch

/-- **The law of the line search.** Let the objective and the constraints of a barrier have real
values, let `x` be strictly feasible, and let the gradients of the components be real there. Then
there is a least number `k` of reductions at which the value is at most what the slope promises or
the step length `βᵏ` is not above the floor. With more than `k` trials the line search returns
`βᵏ`, and has evaluated the barrier at `x` and at the trial points up to number `k`, in order; with
no more than `k` trials it is given up. The point that the step leads to is the last trial point,
and if the step length is above the floor this point is strictly feasible and not too high. -/
theorem line_search_law (φ : Barrier Extended n)
    (hvalue : ∀ f ∈ φ.objective :: φ.constraints, ∀ z, ∃ u, f.HasValue z u) (x v : Fin n → ℝ)
    (hgradient : ∀ f ∈ φ.objective :: φ.constraints, ∃ d, f.HasGradient x d)
    (hx : φ.StrictlyFeasibleAt x) (a β c : ℝ) (hβ : β < 1) (hc : 0 < c) :
    ∃ (F : ℝ) (g : Fin n → ℝ) (k : ℕ), φ.toSmooth.HasValue x F ∧ φ.toSmooth.HasGradient x g ∧
      IsLeast {j : ℕ | (∃ y, (φ.value (vec (x + β ^ j • v)).toArray).outcome = .ok y ∧
        y ≤ real (F + a * β ^ j * (g ⬝ᵥ v))) ∨ β ^ j ≤ c} k ∧
      (∀ trials, k < trials →
        (ofReals a β c trials).stepLength φ.toSmooth (vec x) (vec g) (vec v) =
          ⟨(φ.value (vec x).toArray).log ++
            (List.range (k + 1)).flatMap fun j => (φ.value (vec (x + β ^ j • v)).toArray).log,
            .ok (real (β ^ k))⟩) ∧
      (∀ trials ≤ k, ((ofReals a β c trials).stepLength φ.toSmooth (vec x) (vec g)
        (vec v)).outcome = .error .unfinished) ∧
      Newton.move (real (β ^ k)) (vec v) (vec x : Vec Extended n).toArray
        = pure (vec (x + β ^ k • v) : Vec Extended n).toArray ∧
      (c < β ^ k → φ.StrictlyFeasibleAt (x + β ^ k • v) ∧
        ∃ F', φ.toSmooth.HasValue (x + β ^ k • v) F' ∧ F' ≤ F + a * β ^ k * (g ⬝ᵥ v)) := by
  have hcomponents : ∀ z, ∀ f ∈ φ.objective :: φ.constraints, ∃ u, f.HasValue z u :=
    fun z f hf => hvalue f hf z
  have hdefined := fun z => Barrier.exists_outcome_value_ne_undefined (hcomponents z)
  obtain ⟨F, hF⟩ := Barrier.exists_hasValue (hcomponents x) hx
  obtain ⟨g, hg⟩ := Barrier.exists_hasGradient (hcomponents x) hgradient hx
  classical
  have hends : ∃ j : ℕ, (∃ y, (φ.value (vec (x + β ^ j • v)).toArray).outcome = .ok y ∧
      y ≤ real (F + a * β ^ j * (g ⬝ᵥ v))) ∨ β ^ j ≤ c := by
    obtain ⟨j, hj⟩ := exists_pow_lt_of_lt_one hc hβ
    exact ⟨j, Or.inr hj.le⟩
  have hleast := Nat.isLeast_find hends
  set k := Nat.find hends
  have hstops : ∀ trials, IsLeast {j | (ofReals a β c trials).StopsAt φ.toSmooth (vec x) (vec v)
      (real F) (real (g ⬝ᵥ v)) ((ofReals a β c trials).lengthAfter 1 j)} k := by
    intro trials
    convert hleast using 3 with j
    rw [lengthAfter_ofReals]
    exact stopsAt_ofReals_iff (hdefined _)
  have hturns : ∀ trials, ∀ j < k, (ofReals a β c trials).TurnsDown φ.toSmooth (vec x) (vec v)
      (real F) (real (g ⬝ᵥ v)) ((ofReals a β c trials).lengthAfter 1 j) := by
    refine fun trials => turnsDown_of_isLeast (fun j => ?_) (hstops trials)
    rw [lengthAfter_ofReals, trial_vec]
    obtain ⟨y, hy, -⟩ := hdefined (x + β ^ j • v)
    exact ⟨y, hy⟩
  refine ⟨F, g, k, hF, hg, hleast, fun trials htrials => ?_, fun trials htrials => ?_,
    Newton.move_vec _ _ _, fun habove => ?_⟩
  · have hsearch : (ofReals a β c trials).search φ.toSmooth.value (vec x) (vec v) (real F)
        (real (g ⬝ᵥ v)) (ofReals a β c trials : LineSearch Extended).trials 1 = _ :=
      search_eq htrials (hstops trials).1 (hturns trials)
    rw [stepLength_of_outcome _ hF, dot_vec, hsearch]
    simp only [lengthAfter_ofReals, trial_vec]
    rfl
  · rw [stepLength_of_outcome _ hF, dot_vec]
    exact outcome_search_of_turnsDown fun j hj => hturns trials j (hj.trans_le htrials)
  · obtain ⟨y, hy, hle⟩ := hleast.1.resolve_right habove.not_ge
    exact Barrier.strictlyFeasibleAt_of_value_le (hcomponents _) hy hle

/-! ### A search towards the boundary -/

namespace Barrier

/-- The barrier of the half-line with an objective that leads to the boundary. -/
noncomputable def attracted : Barrier Extended 1 := belowOne 4 (-1) zero_le_four

/-- The value at a point below one. -/
theorem hasValue_attracted {x : Fin 1 → ℝ} (hx : x 0 < 1) :
    attracted.toSmooth.HasValue x (4 * (-1 * x 0) - Real.log (1 - x 0)) := by
  obtain ⟨hvalue₀, -, -⟩ := Quadratic.formulas_affine (α := Extended) (-1) 0 x
  have hvalue := attracted.hasValue_of_feasible (t := 4) rfl hvalue₀
    (hasValue_constraint_belowOne x) fun c _ => sub_neg.mpr hx
  convert hvalue using 1
  show _ = 4 * (-1 * x 0 + 0) - (Real.log (-(x 0 - 1)) + 0)
  rw [add_zero, add_zero, neg_sub]

end Barrier

open Barrier

/-- The law for a search that begins with three points outside the domain, the last of them on the
boundary. -/
theorem line_search_law_attracted :
    attracted.StrictlyFeasibleAt ![0] ∧ attracted.toSmooth.HasGradient ![0] ![-3] ∧
    ((ofReals (1 / 4) (1 / 2) (1 / 100) 10).stepLength attracted.toSmooth (vec ![0]) (vec ![-3])
      (vec ![4])).outcome = .ok (real (1 / 8)) ∧
    attracted.StrictlyFeasibleAt ![1 / 2] := by
  have hreal : ∀ f ∈ attracted.objective :: attracted.constraints, f.IsFiniteQuadratic :=
    isFiniteQuadratic_belowOne
  have hvalues : ∀ f ∈ attracted.objective :: attracted.constraints, ∀ z, ∃ u, f.HasValue z u :=
    fun f hf z => ((hreal f hf).realAt z).value
  have hx : attracted.StrictlyFeasibleAt ![0] := strictlyFeasibleAt_belowOne.mpr one_pos
  have hgradient : attracted.toSmooth.HasGradient ![0] ![-3] := by
    have hslope : (4 * -1 + 1 / (1 - 0) : ℝ) = -3 := by norm_num
    have h := (derivatives_belowOne (t := 4) (b := -1) (h := zero_le_four) (x := ![0]) one_pos).1
    exact hslope ▸ h
  obtain ⟨F, g, k, hF, hg, hleast, hsearch, -, -, hinside⟩ :=
    line_search_law attracted hvalues ![0] ![4] (fun f hf => ((hreal f hf).realAt _).gradient) hx
      (1 / 4) (1 / 2) (1 / 100) (by norm_num) (by norm_num)
  obtain rfl := vec_injective (Except.ok.inj (hg.symm.trans hgradient))
  obtain rfl := real_injective
    (Except.ok.inj (hF.symm.trans (hasValue_attracted (x := ![0]) one_pos)))
  have hpoint : ∀ j : ℕ, (![0] : Fin 1 → ℝ) + (1 / 2 : ℝ) ^ j • ![4] = ![(1 / 2) ^ j * 4] := by
    intro j
    rw [Matrix.smul_cons, Matrix.smul_empty, Matrix.cons_add_cons, zero_add, smul_eq_mul,
      Matrix.empty_add_empty]
  simp only [hpoint] at hleast hinside
  have hk : k = 3 := by
    refine hleast.unique ⟨Or.inl ⟨_, hasValue_attracted (by norm_num), real_le_real.mpr ?_⟩,
      fun j hj => ?_⟩
    · have hlog : Real.log 2 ≤ 2 - 1 := Real.log_le_sub_one_of_pos two_pos
      have hhalf : Real.log (1 - (1 / 2) ^ 3 * 4) = -Real.log 2 := by
        rw [← Real.log_inv]
        norm_num
      norm_num [hhalf]
      linarith
    · by_contra hlt
      have hquarter : (1 / 2 : ℝ) ^ 2 ≤ (1 / 2) ^ j :=
        pow_le_pow_of_le_one (by norm_num) (by norm_num) (Nat.le_of_lt_succ (not_le.mp hlt))
      rcases hj with ⟨y, hy, hle⟩ | hfloor
      · have hfeasible := strictlyFeasibleAt_of_value_le (fun f hf => hvalues f hf _) hy hle
        have hone : (1 / 2 : ℝ) ^ j * 4 < 1 := strictlyFeasibleAt_belowOne.mp hfeasible.1
        linarith
      · linarith
  subst hk
  refine ⟨hx, hgradient, ?_, ?_⟩
  · rw [hsearch 10 (by norm_num)]
    norm_num
  · have hhalf : ((1 / 2) ^ 3 * 4 : ℝ) = 1 / 2 := by norm_num
    exact hhalf ▸ (hinside (by norm_num)).1

end InteriorPoint

import InteriorPoint.Proofs.Function.BarrierContract
import InteriorPoint.Proofs.Function.Composition
import InteriorPoint.Proofs.Function.QuadraticFormulas
import InteriorPoint.Proofs.Newton.Search

/-!
# The domain of barriers over barriers

Where a constraint of a barrier is violated, the barrier is infinite, so that a line search turns
back. As the objective of another barrier, this infinity has a way to go: it is multiplied by a
weight, and logarithms are taken off. It arrives if each weight on the way is positive and no
constraint on the way has an infinite value (`Barrier.KeepsInfinity`). A weight of zero makes it
undefined, and so does a constraint that is negative infinity; what is undefined stays so, and a
line search takes it for a decrease (`nested_domain_law`).

A barrier whose own constraint is violated is infinite whatever its objective is, so the way begins
at the outermost barrier with a violated constraint.
-/

namespace InteriorPoint

open Scalar

variable {α : Type} [Scalar α] {n : ℕ}

namespace Barrier

/-! ## Towers of quadratic functions -/

/-- The quadratic functions. -/
def IsQuadratic (f : Smooth α n) : Prop := ∃ q : Quadratic α n, f = q.toSmooth

/-- A tower over a function that is built is built. -/
theorem Tower.composed {leaf : Smooth α n → Prop} {ground f : Smooth α n} {φs : List (Barrier α n)}
    (hf : Tower ground φs f) (hground : Composed leaf ground)
    (hφs : ∀ φ ∈ φs, ∀ c ∈ φ.constraints, Composed leaf c) : Composed leaf f := by
  induction hf with
  | ground => exact hground
  | barrier φ _ ih =>
    obtain ⟨hc, hrest⟩ := List.forall_mem_cons.mp hφs
    exact .barrier φ (ih hrest) hc

/-- A quadratic function has a value at every point. -/
theorem exists_value_of_isQuadratic {x : Vec α n} {f : Smooth α n} (hf : IsQuadratic f) :
    ∃ v, (f.value x.toArray).outcome = .ok v := by
  obtain ⟨q, rfl⟩ := hf
  refine ⟨q.valueAt x, ?_⟩
  show (Smooth.point n x.toArray >>= fun x => pure (q.valueAt x) : Answer α α).outcome = _
  rw [Smooth.point_toArray, pure_bind]
  rfl

/-! ## One barrier -/

/-- A constraint is violated. -/
def ViolatedAt (φ : Barrier α n) (x : Vec α n) : Prop :=
  ∃ c ∈ φ.constraints, ∃ u, (c.value x.toArray).outcome = .ok u ∧ violates u

/-- **What lets an infinite objective through**: a positive weight, and finite constraints. -/
structure KeepsInfinity (φ : Barrier α n) (x : Vec α n) : Prop where
  /-- The weight is positive. -/
  weight_pos : 0 < φ.weight
  /-- Each constraint has a finite value. -/
  finite : ∀ c ∈ φ.constraints, ∃ u, (c.value x.toArray).outcome = .ok u ∧ isFinite u = true

variable {φ : Barrier α n} {x : Vec α n} {cs : List (Smooth α n)}

/-- One constraint that is not violated takes its logarithm off. -/
theorem outcome_subtractLogs_cons {c : Smooth α n} {u : α}
    (hu : (c.value x.toArray).outcome = .ok u) (hviolates : ¬ violates u) (i : ℕ) (v : α) :
    (subtractLogs x.toArray i (c :: cs) v).outcome
      = (subtractLogs x.toArray (i + 1) cs (v - log (-u))).outcome := by
  rw [subtractLogs, Answer.outcome_bind, hu]
  show (ite (violates u) _ _ : Answer α α).outcome = _
  rw [if_neg hviolates]

/-- The value of a barrier is what its constraints leave of its weighted objective. -/
theorem outcome_value {v : α} (hv : (φ.objective.value x.toArray).outcome = .ok v) :
    (φ.value x.toArray).outcome
      = (subtractLogs x.toArray 0 φ.constraints (φ.weight * v)).outcome := by
  unfold value
  rw [Smooth.point_toArray, pure_bind, Answer.outcome_bind, hv]
  rfl

/-- **A barrier is infinite outside its own domain**, whatever its objective is. -/
theorem outcome_value_of_violatedAt (h₀ : ∃ v, (φ.objective.value x.toArray).outcome = .ok v)
    (h : ∀ c ∈ φ.constraints, ∃ u, (c.value x.toArray).outcome = .ok u) (hx : φ.ViolatedAt x) :
    (φ.value x.toArray).outcome = .ok infinity := by
  obtain ⟨v, hv⟩ := h₀
  have : Nonempty α := ⟨v⟩
  choose! u hu using h
  obtain ⟨c, hc, w, hw, hviolates⟩ := hx
  obtain rfl := Except.ok.inj ((hu c hc).symm.trans hw)
  rw [outcome_value_eq_foldl hv hu, if_pos ⟨c, hc, hviolates⟩]

/-! ## The way of an infinity -/

section Rules

variable [InfinityRules α]

open InfinityRules

theorem lt_zero_of_not_violates {u : α} (h : ¬ violates u) : u < 0 := by
  obtain hnan | hneg | hle := isNaN_or_lt_or_le u
  · exact absurd (Or.inl hnan) h
  · exact hneg
  · exact absurd (Or.inr hle) h

/-- What is undefined stays so. -/
theorem isNaN_subtractLogs (hcs : ∀ c ∈ cs, ∃ u, (c.value x.toArray).outcome = .ok u)
    (hsatisfied : ∀ c ∈ cs, ∀ u, (c.value x.toArray).outcome = .ok u → ¬ violates u) (i : ℕ)
    {v : α} (hv : isNaN v = true) :
    ∃ w, (subtractLogs x.toArray i cs v).outcome = .ok w ∧ isNaN w = true := by
  induction cs generalizing i v with
  | nil => exact ⟨v, rfl, hv⟩
  | cons c cs ih =>
    obtain ⟨⟨u, hu⟩, hcs⟩ := List.forall_mem_cons.mp hcs
    obtain ⟨hc, hsatisfied⟩ := List.forall_mem_cons.mp hsatisfied
    rw [outcome_subtractLogs_cons hu (hc u hu)]
    exact ih hcs hsatisfied _ (isNaN_sub _ hv)

/-- An evaluation that comes to infinity if a condition holds, and to nothing defined if not. -/
def InfiniteIff (r : Except (Failure α) α) (p : Prop) : Prop :=
  ∃ v, r = .ok v ∧ (p → v = infinity) ∧ (¬ p → isNaN v = true)

omit [InfinityRules α] in
theorem infiniteIff_of_not {r : Except (Failure α) α} {p : Prop} (hp : ¬ p)
    (h : ∃ v, r = .ok v ∧ isNaN v = true) : InfiniteIff r p := by
  obtain ⟨v, hv, hnan⟩ := h
  exact ⟨v, hv, fun h => absurd h hp, fun _ => hnan⟩

/-- **Logarithms taken off infinity** leave infinity exactly if the constraints are finite. -/
theorem infiniteIff_subtractLogs (hcs : ∀ c ∈ cs, ∃ u, (c.value x.toArray).outcome = .ok u)
    (hsatisfied : ∀ c ∈ cs, ∀ u, (c.value x.toArray).outcome = .ok u → ¬ violates u) (i : ℕ) :
    InfiniteIff (subtractLogs x.toArray i cs infinity).outcome
      (∀ c ∈ cs, ∃ u, (c.value x.toArray).outcome = .ok u ∧ isFinite u = true) := by
  induction cs generalizing i with
  | nil =>
    exact ⟨_, rfl, fun _ => rfl, fun h => absurd (fun c hc => absurd hc List.not_mem_nil) h⟩
  | cons c cs ih =>
    obtain ⟨⟨u, hu⟩, hcs⟩ := List.forall_mem_cons.mp hcs
    obtain ⟨hc, hsatisfied⟩ := List.forall_mem_cons.mp hsatisfied
    have hneg := lt_zero_of_not_violates (hc u hu)
    rw [outcome_subtractLogs_cons hu (hc u hu), List.forall_mem_cons]
    cases hfinite : isFinite u with
    | true =>
      rw [infinity_sub (isFinite_log_neg hfinite hneg), and_iff_right ⟨u, hu, hfinite⟩]
      exact ih hcs hsatisfied (i + 1)
    | false =>
      rw [log_neg hfinite hneg]
      refine infiniteIff_of_not (fun h => ?_)
        (isNaN_subtractLogs hcs hsatisfied _ isNaN_infinity_sub)
      obtain ⟨u', hu', hfinite'⟩ := h.1
      obtain rfl := Except.ok.inj (hu.symm.trans hu')
      exact absurd hfinite' (Bool.eq_false_iff.mp hfinite)

/-- **An infinite objective** of a barrier whose constraints are not violated. -/
theorem infiniteIff_value (hv : (φ.objective.value x.toArray).outcome = .ok infinity)
    (h : ∀ c ∈ φ.constraints, ∃ u, (c.value x.toArray).outcome = .ok u) (hx : ¬ φ.ViolatedAt x) :
    InfiniteIff (φ.value x.toArray).outcome (φ.KeepsInfinity x) := by
  have hsatisfied : ∀ c ∈ φ.constraints, ∀ u, (c.value x.toArray).outcome = .ok u →
      ¬ violates u := fun c hc u hu hviolates => hx ⟨c, hc, u, hu, hviolates⟩
  rw [outcome_value hv]
  by_cases hpos : 0 < φ.weight
  · have hkeeps : φ.KeepsInfinity x ↔
        ∀ c ∈ φ.constraints, ∃ u, (c.value x.toArray).outcome = .ok u ∧ isFinite u = true :=
      ⟨fun hk => hk.finite, fun hfinite => ⟨hpos, hfinite⟩⟩
    rw [mul_infinity φ.weight_finite hpos, hkeeps]
    exact infiniteIff_subtractLogs h hsatisfied 0
  · exact infiniteIff_of_not (fun hk => hpos hk.weight_pos) (isNaN_subtractLogs h hsatisfied _
      (isNaN_mul_infinity φ.weight_finite φ.weight_not_neg hpos))

/-- An undefined objective of a barrier whose constraints are not violated leaves it undefined. -/
theorem isNaN_value {v : α} (hv : (φ.objective.value x.toArray).outcome = .ok v)
    (hnan : isNaN v = true) (h : ∀ c ∈ φ.constraints, ∃ u, (c.value x.toArray).outcome = .ok u)
    (hx : ¬ φ.ViolatedAt x) : ∃ w, (φ.value x.toArray).outcome = .ok w ∧ isNaN w = true := by
  rw [outcome_value hv]
  exact isNaN_subtractLogs h (fun c hc u hu hviolates => hx ⟨c, hc, u, hu, hviolates⟩) _
    (isNaN_mul _ hnan)

/-- **The way of an infinity through a tower**, from the outermost barrier with a violated
constraint on. -/
theorem Tower.infiniteIff_value {ground f : Smooth α n} {φs : List (Barrier α n)}
    (hf : Tower ground φs f) (hground : Composed IsQuadratic ground)
    (hφs : ∀ φ ∈ φs, ∀ c ∈ φ.constraints, Composed IsQuadratic c)
    (hx : ∃ φ ∈ φs, φ.ViolatedAt x) :
    ∃ above ψ below, φs = above ++ ψ :: below ∧ ψ.ViolatedAt x ∧
      (∀ χ ∈ above, ¬ χ.ViolatedAt x) ∧
      InfiniteIff (f.value x.toArray).outcome (∀ χ ∈ above, χ.KeepsInfinity x) := by
  have hvalue : ∀ c, Composed IsQuadratic c → ∃ u, (c.value x.toArray).outcome = .ok u :=
    fun c hc => hc.exists_value fun q hq => exists_value_of_isQuadratic hq
  induction hf with
  | ground =>
    obtain ⟨φ, hφ, -⟩ := hx
    exact absurd hφ List.not_mem_nil
  | @barrier φs φ htower ih =>
    obtain ⟨hc, hφs⟩ := List.forall_mem_cons.mp hφs
    have hconstraints : ∀ c ∈ φ.constraints, ∃ u, (c.value x.toArray).outcome = .ok u :=
      fun c hc' => hvalue c (hc c hc')
    by_cases hviolated : φ.ViolatedAt x
    · have h₀ := hvalue _ (htower.composed hground hφs)
      exact ⟨[], φ, φs, rfl, hviolated, fun χ hχ => absurd hχ List.not_mem_nil, infinity,
        outcome_value_of_violatedAt h₀ hconstraints hviolated, fun _ => rfl,
        fun h => absurd (fun χ hχ => absurd hχ List.not_mem_nil) h⟩
    · obtain ⟨above, ψ, below, rfl, hψ, habove, v, hv, hkeeps, hloses⟩ :=
        ih hφs (((List.exists_mem_cons_iff _ _ _).mp hx).resolve_left hviolated)
      refine ⟨φ :: above, ψ, below, rfl, hψ, List.forall_mem_cons.mpr ⟨hviolated, habove⟩, ?_⟩
      rw [List.forall_mem_cons]
      by_cases hall : ∀ χ ∈ above, χ.KeepsInfinity x
      · obtain rfl := hkeeps hall
        rw [and_iff_left hall]
        exact Barrier.infiniteIff_value hv hconstraints hviolated
      · exact infiniteIff_of_not (fun h => hall h.2)
          (isNaN_value hv (hloses hall) hconstraints hviolated)

end Rules

end Barrier

open Barrier

/-- **The domain law of nested barriers.** Let a constraint be violated, at least zero or
undefined, of some barrier in a tower of barriers over a quadratic function, with constraints that
are built from quadratic functions and barriers. If every barrier above the outermost such barrier
has a positive weight and finite constraints, the value is infinite, and a line search that compares
with something finite turns the point down as long as its step length is above the floor. If not,
the value is undefined, and every line search stops at the point. -/
theorem nested_domain_law [InfinityRules α] (q : Quadratic α n) (φs : List (Barrier α n))
    (f : Smooth α n) (hf : Tower q.toSmooth φs f)
    (hφs : ∀ φ ∈ φs, ∀ c ∈ φ.constraints, Composed IsQuadratic c) (x : Vec α n)
    (hx : ∃ φ ∈ φs, φ.ViolatedAt x) :
    ∃ above ψ below, φs = above ++ ψ :: below ∧ ψ.ViolatedAt x ∧
      (∀ χ ∈ above, ¬ χ.ViolatedAt x) ∧
      ((∀ χ ∈ above, χ.KeepsInfinity x) → (f.value x.toArray).outcome = .ok infinity ∧
        ∀ (l : LineSearch α) (y v : Vec α n) (fy slope s : α), LineSearch.trial y v s = x →
          isFinite (fy + l.fraction * s * slope) = true → l.floor < s →
          l.TurnsDown f y v fy slope s) ∧
      (¬ (∀ χ ∈ above, χ.KeepsInfinity x) →
        (∃ u, (f.value x.toArray).outcome = .ok u ∧ isNaN u = true) ∧
        ∀ (l : LineSearch α) (y v : Vec α n) (fy slope s : α), LineSearch.trial y v s = x →
          l.StopsAt f y v fy slope s) := by
  obtain ⟨above, ψ, below, hsplit, hψ, habove, u, hu, hkeeps, hloses⟩ :=
    hf.infiniteIff_value (.leaf ⟨q, rfl⟩) hφs hx
  refine ⟨above, ψ, below, hsplit, hψ, habove, fun h => ?_, fun h => ?_⟩
  · obtain rfl := hkeeps h
    refine ⟨hu, ?_⟩
    rintro l y v fy slope s rfl hfinite hfloor
    exact LineSearch.turnsDown_of_infinity hu hfinite hfloor
  · refine ⟨⟨u, hu, hloses h⟩, ?_⟩
    rintro l y v fy slope s rfl
    exact LineSearch.stopsAt_of_isNaN hu (hloses h)

/-! ### Barriers of a half-line -/

namespace Barrier

open Exact

/-- The barrier of the points below one, with the objective `b·x` at the weight `t`. -/
noncomputable def belowOne (t b : ℝ) (h : 0 ≤ t) : Barrier Extended 1 where
  weight := real t
  objective := (Quadratic.affine b 0).toSmooth
  constraints := [(Quadratic.affine 1 (-1)).toSmooth]
  weight_finite := isFinite_real t
  weight_not_neg := by rwa [real_lt_zero, not_lt]

/-- The barrier of the half-line below one. -/
noncomputable def halfLine : Barrier Extended 1 := belowOne 1 1 zero_le_one

/-- A barrier without constraints over the barrier of the half-line. -/
noncomputable def overHalfLine (t : ℝ) (ht : 0 ≤ t) : Barrier Extended 1 where
  weight := real t
  objective := halfLine.toSmooth
  constraints := []
  weight_finite := isFinite_real t
  weight_not_neg := by rwa [real_lt_zero, not_lt]

theorem tower_overHalfLine {t : ℝ} (ht : 0 ≤ t) :
    Tower (Quadratic.affine 1 0).toSmooth [overHalfLine t ht, halfLine]
      (overHalfLine t ht).toSmooth :=
  .barrier _ (.barrier halfLine .ground)

theorem composed_overHalfLine {t : ℝ} (ht : 0 ≤ t) :
    ∀ φ ∈ [overHalfLine t ht, halfLine], ∀ c ∈ φ.constraints, Composed IsQuadratic c :=
  List.forall_mem_cons.mpr ⟨fun _ hc => absurd hc List.not_mem_nil,
    List.forall_mem_singleton.mpr (List.forall_mem_singleton.mpr (.leaf ⟨_, rfl⟩))⟩

/-- The point two violates the constraint of the half-line. -/
theorem violatedAt_halfLine : halfLine.ViolatedAt (vec ![2]) := by
  obtain ⟨hvalue, -, -⟩ := Quadratic.formulas_affine (α := Extended) 1 (-1) ![2]
  refine ⟨_, List.mem_singleton_self _, _, hvalue, violates_real.mpr ?_⟩
  norm_num

/-- The half-line is infinite at the point two. -/
theorem value_halfLine : (halfLine.value (vec ![2] : Vec Extended 1).toArray).outcome
    = .ok infinity :=
  outcome_value_of_violatedAt ⟨_, (Quadratic.formulas_affine 1 0 _).1⟩
    (List.forall_mem_singleton.mpr ⟨_, (Quadratic.formulas_affine 1 (-1) _).1⟩) violatedAt_halfLine

end Barrier

/-- The law for a positive weight over the half-line. -/
theorem nested_domain_law_overHalfLine :
    (∃ φ ∈ [overHalfLine 1 zero_le_one, halfLine], φ.ViolatedAt (Exact.vec ![2])) ∧
    (overHalfLine 1 zero_le_one).KeepsInfinity (Exact.vec ![2]) ∧
    ((overHalfLine 1 zero_le_one).value (Exact.vec ![2] : Vec Extended 1).toArray).outcome
      = .ok infinity := by
  have hx : ∃ φ ∈ [overHalfLine 1 zero_le_one, halfLine], φ.ViolatedAt (Exact.vec ![2]) :=
    ⟨halfLine, List.mem_cons_of_mem _ (List.mem_singleton_self _), violatedAt_halfLine⟩
  have hkeeps : (overHalfLine 1 zero_le_one).KeepsInfinity (Exact.vec ![2]) :=
    ⟨Exact.real_lt_real.mpr one_pos, fun _ hc => absurd hc List.not_mem_nil⟩
  obtain ⟨above, ψ, below, hsplit, -, habove, hvalue, -⟩ := nested_domain_law _ _ _
    (tower_overHalfLine zero_le_one) (composed_overHalfLine zero_le_one) _ hx
  refine ⟨hx, hkeeps, (hvalue fun χ hχ => ?_).1⟩
  have hmem : χ ∈ [overHalfLine 1 zero_le_one, halfLine] :=
    hsplit ▸ List.mem_append_left _ hχ
  rcases List.mem_pair.mp hmem with rfl | rfl
  · exact hkeeps
  · exact absurd violatedAt_halfLine (habove _ hχ)

/-- **A weight of zero loses the domain**: the value is undefined at a point outside the half-line,
and a line search from a point inside takes the step there. -/
theorem nested_domain_undefined :
    halfLine.ViolatedAt (Exact.vec ![2]) ∧
    Tower (Quadratic.affine 1 0).toSmooth [overHalfLine 0 le_rfl, halfLine]
      (overHalfLine 0 le_rfl).toSmooth ∧
    ((overHalfLine 0 le_rfl).value (Exact.vec ![2] : Vec Extended 1).toArray).outcome
      = .ok .undefined ∧
    ∀ g, (({} : LineSearch Extended).stepLength (overHalfLine 0 le_rfl).toSmooth
      (Exact.vec ![0]) g (Exact.vec ![2])).outcome = .ok 1 := by
  have hvalue : ((overHalfLine 0 le_rfl).value (Exact.vec ![2] : Vec Extended 1).toArray).outcome
      = .ok .undefined := by
    rw [outcome_value value_halfLine]
    exact congrArg Except.ok (if_pos rfl)
  have hinside : ∃ v, ((overHalfLine 0 le_rfl).toSmooth.value
      (Exact.vec ![0] : Vec Extended 1).toArray).outcome = .ok v :=
    ((tower_overHalfLine le_rfl).composed (.leaf ⟨_, rfl⟩)
      (composed_overHalfLine le_rfl)).exists_value fun q hq => exists_value_of_isQuadratic hq
  have htrial : LineSearch.trial (Exact.vec ![0]) (Exact.vec ![2]) 1
      = (Exact.vec ![2] : Vec Extended 1) := by
    rw [← Exact.real_one, LineSearch.trial_vec, one_smul]
    congr 1
    norm_num
  obtain ⟨v, hv⟩ := hinside
  rw [← htrial] at hvalue
  refine ⟨violatedAt_halfLine, tower_overHalfLine le_rfl, htrial ▸ hvalue, fun g => ?_⟩
  -- the first trial stops the search
  refine LineSearch.outcome_stepLength_eq_ok.mpr
    ⟨v, hv, LineSearch.outcome_search_eq_ok_iff.mpr ⟨0, by decide, rfl, ?_, ?_⟩⟩
  · exact LineSearch.stopsAt_of_isNaN hvalue rfl
  · exact fun j hj => absurd hj (Nat.not_lt_zero j)

end InteriorPoint

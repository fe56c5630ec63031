import InteriorPoint.Function.Barrier
import Mathlib.Data.List.Basic
import Mathlib.Tactic.Choose

/-!
# The loops of a barrier as folds

The value, the gradient and the Hessian of a barrier are loops over its constraints that evaluate
on the way, and so is the test of strict feasibility. Where the components evaluate, whatever to,
each loop comes to the fold of a step without evaluations (`Barrier.outcome_value_eq_foldl`,
`Barrier.outcome_gradient_eq_foldl`, `Barrier.outcome_hessian_eq_foldl`). This holds over any
scalars and at any vector, so what the order or the grouping of the constraints does is a question
about these folds alone.
-/

namespace InteriorPoint

variable {α : Type} {n : ℕ}

/-- **A loop of steps that evaluate** is the fold of what they evaluate to. -/
theorem Answer.outcome_foldlM {β σ : Type} {step : σ → β → Answer α σ} {next : σ → β → σ}
    {l : List β} (h : ∀ b ∈ l, ∀ s, (step s b).outcome = .ok (next s b)) (s : σ) :
    (l.foldlM step s).outcome = .ok (l.foldl next s) := by
  induction l generalizing s with
  | nil => rfl
  | cons b l ih =>
    obtain ⟨hb, hl⟩ := List.forall_mem_cons.mp h
    rw [List.foldlM_cons, List.foldl_cons]
    exact Answer.outcome_bind_eq_ok.mpr ⟨_, hb s, ih hl _⟩

/-- **A function evaluates at a vector**: there is a value, a gradient and a Hessian. -/
structure Smooth.EvaluatesAt (f : Smooth α n) (x : Vec α n) : Prop where
  /-- There is a value. -/
  value : ∃ v, (f.value x.toArray).outcome = .ok v
  /-- There is a gradient. -/
  gradient : ∃ g, (f.gradient x.toArray).outcome = .ok g
  /-- There is a Hessian. -/
  hessian : ∃ K, (f.hessian x.toArray).outcome = .ok K

namespace Barrier

open Scalar

variable [Scalar α] {φ : Barrier α n} {x : Vec α n} {cs : List (Smooth α n)} {u : Smooth α n → α}
  {d : Smooth α n → Vec α n} {K : Smooth α n → Mat α n n}

/-! ## Feasibility -/

/-- **All constraints of a list are satisfied** if all their values are negative. -/
theorem outcome_allSatisfied (hu : ∀ c ∈ cs, (c.value x.toArray).outcome = .ok (u c)) :
    (allSatisfied x.toArray cs).outcome = .ok (decide (∀ c ∈ cs, u c < 0)) := by
  induction cs with
  | nil => rfl
  | cons c cs ih =>
    obtain ⟨huc, hu⟩ := List.forall_mem_cons.mp hu
    rw [allSatisfied, Answer.outcome_bind, huc]
    show (ite (u c < 0) _ _ : Answer α Bool).outcome = _
    by_cases hc : u c < 0
    · simp [hc, ih hu]
    · simp [hc]

/-- The test of strict feasibility. -/
theorem outcome_isStrictlyFeasible_eq
    (hu : ∀ c ∈ φ.constraints, (c.value x.toArray).outcome = .ok (u c)) :
    (φ.isStrictlyFeasible x.toArray).outcome = .ok (decide (∀ c ∈ φ.constraints, u c < 0)) := by
  unfold isStrictlyFeasible
  rw [Smooth.point_toArray, pure_bind, outcome_allSatisfied hu]

/-- All constraints of a list are satisfied exactly if every one has a negative value. -/
theorem outcome_allSatisfied_eq_ok_true : (allSatisfied x.toArray cs).outcome = .ok true ↔
    ∀ c ∈ cs, ∃ v, (c.value x.toArray).outcome = .ok v ∧ v < 0 := by
  induction cs with
  | nil => exact iff_of_true rfl fun c hc => absurd hc List.not_mem_nil
  | cons c cs ih =>
    rw [List.forall_mem_cons, ← ih, allSatisfied, Answer.outcome_bind_eq_ok, ← exists_and_right]
    refine exists_congr fun v => ?_
    rw [and_assoc]
    refine and_congr_right fun _ => ?_
    by_cases hv : v < 0
    · rw [if_pos hv, and_iff_right hv]
    · rw [if_neg hv]
      exact iff_of_false (fun h => Bool.false_ne_true (Except.ok.inj h)) fun h => hv h.1

/-- **Strict feasibility** at any point: every constraint has a value, and a negative one. -/
theorem isStrictlyFeasible_eq_ok_true (φ : Barrier α n) (x : Vec α n) :
    (φ.isStrictlyFeasible x.toArray).outcome = .ok true ↔
      ∀ c ∈ φ.constraints, ∃ v, (c.value x.toArray).outcome = .ok v ∧ v < 0 := by
  unfold isStrictlyFeasible
  rw [Smooth.point_toArray, pure_bind, outcome_allSatisfied_eq_ok_true]

/-! ## Value -/

/-- **Logarithms taken off a value**: infinity if a constraint is violated, the fold if none is. -/
theorem outcome_subtractLogs_eq_foldl (hu : ∀ c ∈ cs, (c.value x.toArray).outcome = .ok (u c))
    (i : ℕ) (v : α) :
    (subtractLogs x.toArray i cs v).outcome = .ok (if ∃ c ∈ cs, violates (u c) then infinity
      else cs.foldl (fun v c => v - log (-u c)) v) := by
  induction cs generalizing i v with
  | nil =>
    rw [if_neg fun ⟨c, hc, _⟩ => List.not_mem_nil hc]
    rfl
  | cons c cs ih =>
    obtain ⟨huc, hu⟩ := List.forall_mem_cons.mp hu
    rw [subtractLogs, Answer.outcome_bind, huc]
    show (ite (violates (u c)) _ _ : Answer α α).outcome = _
    simp only [List.exists_mem_cons_iff]
    by_cases hc : violates (u c)
    · rw [if_pos hc, if_pos (Or.inl hc)]
      rfl
    · rw [if_neg hc, ih hu, List.foldl_cons]
      simp only [hc, false_or]

/-- **The value of a barrier** as a fold. -/
theorem outcome_value_eq_foldl {v : α} (hv : (φ.objective.value x.toArray).outcome = .ok v)
    (hu : ∀ c ∈ φ.constraints, (c.value x.toArray).outcome = .ok (u c)) :
    (φ.value x.toArray).outcome = .ok (if ∃ c ∈ φ.constraints, violates (u c) then infinity
      else φ.constraints.foldl (fun v c => v - log (-u c)) (φ.weight * v)) := by
  unfold value
  rw [Smooth.point_toArray, pure_bind, Answer.outcome_bind, hv]
  exact outcome_subtractLogs_eq_foldl hu _ _

/-! ## Derivatives -/

/-- **The gradient of a barrier** as a fold. -/
theorem outcome_gradient_eq_foldl {g : Vec α n}
    (hg : (φ.objective.gradient x.toArray).outcome = .ok g)
    (hu : ∀ c ∈ φ.constraints, (c.value x.toArray).outcome = .ok (u c))
    (hd : ∀ c ∈ φ.constraints, (c.gradient x.toArray).outcome = .ok (d c)) :
    (φ.gradient x.toArray).outcome = .ok (φ.constraints.foldl
      (fun g c => Vec.addScaled (-1 / u c) (d c) g) (Vec.scale g φ.weight)) := by
  unfold gradient
  rw [Smooth.point_toArray, pure_bind, Answer.outcome_bind, hg]
  exact Answer.outcome_foldlM (fun c hc g => Answer.outcome_bind_eq_ok.mpr
    ⟨_, hu c hc, Answer.outcome_bind_eq_ok.mpr ⟨_, hd c hc, rfl⟩⟩) _

/-- **The Hessian of a barrier** as a fold. -/
theorem outcome_hessian_eq_foldl {H : Mat α n n}
    (hH : (φ.objective.hessian x.toArray).outcome = .ok H)
    (hu : ∀ c ∈ φ.constraints, (c.value x.toArray).outcome = .ok (u c))
    (hd : ∀ c ∈ φ.constraints, (c.gradient x.toArray).outcome = .ok (d c))
    (hK : ∀ c ∈ φ.constraints, (c.hessian x.toArray).outcome = .ok (K c)) :
    (φ.hessian x.toArray).outcome = .ok (φ.constraints.foldl
      (fun H c => addCurvature H (u c) (d c) (K c)) (Mat.mapEntries (· * φ.weight) H)) := by
  unfold hessian
  rw [Smooth.point_toArray, pure_bind, Answer.outcome_bind, hH]
  exact Answer.outcome_foldlM (fun c hc H => Answer.outcome_bind_eq_ok.mpr
    ⟨_, hu c hc, Answer.outcome_bind_eq_ok.mpr ⟨_, hd c hc,
      Answer.outcome_bind_eq_ok.mpr ⟨_, hK c hc, rfl⟩⟩⟩) _

/-- A barrier has a value wherever its components have values. -/
theorem exists_outcome_value (h₀ : ∃ v, (φ.objective.value x.toArray).outcome = .ok v)
    (h : ∀ c ∈ φ.constraints, ∃ u, (c.value x.toArray).outcome = .ok u) :
    ∃ w, (φ.value x.toArray).outcome = .ok w := by
  obtain ⟨v, hv⟩ := h₀
  have : Nonempty α := ⟨v⟩
  choose! u hu using h
  exact ⟨_, outcome_value_eq_foldl hv hu⟩

omit [Scalar α] in
/-- What a list of functions evaluates to. -/
theorem exists_evaluations [Nonempty α] (h : ∀ c ∈ cs, c.EvaluatesAt x) :
    ∃ (u : Smooth α n → α) (d : Smooth α n → Vec α n) (K : Smooth α n → Mat α n n),
      (∀ c ∈ cs, (c.value x.toArray).outcome = .ok (u c)) ∧
      (∀ c ∈ cs, (c.gradient x.toArray).outcome = .ok (d c)) ∧
      ∀ c ∈ cs, (c.hessian x.toArray).outcome = .ok (K c) := by
  have : Nonempty (Vec α n) := ⟨x⟩
  have : Nonempty (Mat α n n) := ⟨Mat.of fun _ => x.get⟩
  choose! u hu using fun c hc => (h c hc).value
  choose! d hd using fun c hc => (h c hc).gradient
  choose! K hK using fun c hc => (h c hc).hessian
  exact ⟨u, d, K, hu, hd, hK⟩

/-- **A barrier evaluates** wherever its components do. -/
theorem evaluatesAt_toSmooth (h : ∀ f ∈ φ.objective :: φ.constraints, f.EvaluatesAt x) :
    φ.toSmooth.EvaluatesAt x := by
  obtain ⟨⟨⟨v₀, hv₀⟩, ⟨g₀, hg₀⟩, ⟨H₀, hH₀⟩⟩, h⟩ := List.forall_mem_cons.mp h
  have : Nonempty α := ⟨v₀⟩
  obtain ⟨u, d, K, hu, hd, hK⟩ := exists_evaluations h
  exact ⟨⟨_, outcome_value_eq_foldl hv₀ hu⟩, ⟨_, outcome_gradient_eq_foldl hg₀ hu hd⟩,
    ⟨_, outcome_hessian_eq_foldl hH₀ hu hd hK⟩⟩

end Barrier

end InteriorPoint

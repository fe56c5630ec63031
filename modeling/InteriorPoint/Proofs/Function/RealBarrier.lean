import InteriorPoint.Proofs.Function.NestedDomain

/-!
# Barriers of real components

Whatever its components are, a barrier is real where it has to be: if their values at a point are
real numbers, its value there is a real number at a strictly feasible point and infinite at any
other one (`Barrier.exists_hasValue`, `Barrier.outcome_value_of_not_strictlyFeasibleAt`). If their
derivatives are real as well, so are its derivatives at a strictly feasible point
(`Barrier.realAt_toSmooth`). There is no third case.
-/

namespace InteriorPoint

open Exact Scalar

variable {α : Type} [Scalar α] [Exact α] {n : ℕ}

namespace Smooth

/-- **A function is real at a point**: its value, its gradient and its Hessian have real entries. -/
structure RealAt (f : Smooth α n) (x : Fin n → ℝ) : Prop where
  /-- The value is a real number. -/
  value : ∃ v, f.HasValue x v
  /-- The gradient is a real vector. -/
  gradient : ∃ g, f.HasGradient x g
  /-- The Hessian is a real matrix. -/
  hessian : ∃ K, f.HasHessian x K

/-- A function that is real at a point evaluates there. -/
theorem RealAt.evaluatesAt {f : Smooth α n} {x : Fin n → ℝ} (hf : f.RealAt x) :
    f.EvaluatesAt (vec x) := by
  obtain ⟨⟨v, hv⟩, ⟨g, hg⟩, ⟨K, hK⟩⟩ := hf
  exact ⟨⟨_, hv⟩, ⟨_, hg⟩, ⟨_, hK⟩⟩

end Smooth

namespace Barrier

variable {φ : Barrier α n} {x : Fin n → ℝ}

/-- **Where the constraints have real values**, one is violated if the point is not strictly
feasible. -/
theorem violatedAt_iff_not_strictlyFeasibleAt (h : ∀ c ∈ φ.constraints, ∃ v, c.HasValue x v) :
    φ.ViolatedAt (vec x) ↔ ¬ φ.StrictlyFeasibleAt x := by
  choose! u hu using h
  rw [StrictlyFeasibleAt, φ.isStrictlyFeasible_iff hu]
  push Not
  refine exists_congr fun c => and_congr_right fun hc => ⟨?_, fun hviolated => ?_⟩
  · rintro ⟨w, hw, hviolates⟩
    obtain rfl := Except.ok.inj ((hu c hc).symm.trans hw)
    exact violates_real.mp hviolates
  · exact ⟨_, hu c hc, violates_real.mpr hviolated⟩

section Value

variable (h : ∀ f ∈ φ.objective :: φ.constraints, ∃ v, f.HasValue x v)

include h

/-- **At a strictly feasible point the value is a real number.** -/
theorem exists_hasValue (hx : φ.StrictlyFeasibleAt x) : ∃ v, φ.toSmooth.HasValue x v := by
  choose! u hu using h
  obtain ⟨h₀, hu⟩ := List.forall_mem_cons.mp hu
  obtain ⟨t, -, ht⟩ := φ.exists_weight_eq
  exact ⟨_, φ.hasValue_of_feasible ht h₀ hu ((φ.isStrictlyFeasible_iff hu).mp hx)⟩

/-- **At every other point the value is infinite.** -/
theorem outcome_value_of_not_strictlyFeasibleAt (hx : ¬ φ.StrictlyFeasibleAt x) :
    (φ.value (vec x).toArray).outcome = .ok infinity := by
  obtain ⟨⟨v₀, h₀⟩, h⟩ := List.forall_mem_cons.mp h
  exact outcome_value_of_violatedAt ⟨_, h₀⟩ (fun c hc => (h c hc).imp' _ fun _ => id)
    ((violatedAt_iff_not_strictlyFeasibleAt h).mpr hx)

/-- **At a strictly feasible point the gradient is real**, if those of the components are. -/
theorem exists_hasGradient (hd : ∀ f ∈ φ.objective :: φ.constraints, ∃ g, f.HasGradient x g)
    (hx : φ.StrictlyFeasibleAt x) : ∃ g, φ.toSmooth.HasGradient x g := by
  choose! u hu using h
  choose! d hd using hd
  obtain ⟨-, hu⟩ := List.forall_mem_cons.mp hu
  obtain ⟨hd₀, hd⟩ := List.forall_mem_cons.mp hd
  obtain ⟨t, -, ht⟩ := φ.exists_weight_eq
  exact ⟨_, φ.hasGradient_of_ne_zero ht hd₀ hu
    (fun c hc => ((φ.isStrictlyFeasible_iff hu).mp hx c hc).ne) hd⟩

end Value

/-- **A barrier of components that are real at a strictly feasible point** is real there. -/
theorem realAt_toSmooth (h : ∀ f ∈ φ.objective :: φ.constraints, f.RealAt x)
    (hx : φ.StrictlyFeasibleAt x) : φ.toSmooth.RealAt x where
  value := exists_hasValue (fun f hf => (h f hf).value) hx
  gradient := exists_hasGradient (fun f hf => (h f hf).value) (fun f hf => (h f hf).gradient) hx
  hessian := by
    choose! u hu using fun f hf => (h f hf).value
    choose! d hd using fun f hf => (h f hf).gradient
    choose! K hK using fun f hf => (h f hf).hessian
    obtain ⟨-, hu⟩ := List.forall_mem_cons.mp hu
    obtain ⟨-, hd⟩ := List.forall_mem_cons.mp hd
    obtain ⟨hK₀, hK⟩ := List.forall_mem_cons.mp hK
    obtain ⟨t, -, ht⟩ := φ.exists_weight_eq
    exact ⟨_, φ.hasHessian_of_ne_zero ht hK₀ hu
      (fun c hc => ((φ.isStrictlyFeasible_iff hu).mp hx c hc).ne) hd hK⟩

end Barrier

end InteriorPoint

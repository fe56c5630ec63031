import InteriorPoint.Proofs.Function.FiniteGradient
import InteriorPoint.Proofs.Kkt.FiniteSystem
import InteriorPoint.Proofs.Kkt.HomogeneousStep
import InteriorPoint.Proofs.Newton.BarrierSearch
import InteriorPoint.Proofs.Newton.Run

/-!
# Runs under equations

Under equations with the residual zero a Newton step `v` has `A·v = 0`, so no multiple of it changes
`A·x`. A run takes multiples of such steps only, so it stays among the points with the same `A·x` as
its start (`equations_run_law`). It does so for as long as it goes on, whatever ends it.

This needs no feasible point and no convex function, but it needs real numbers: `A·v = 0` is read
off a system that is solved exactly, and an infinite entry of the system would not allow for it. A
line search may leave the domain of a barrier, where values are undefined, or end on its boundary,
where derivatives are. What saves the equations there is the check of the pivots, which no system
with an infinite or undefined Hessian passes (`Solver.isFinite_of_outcome_solve`). So where there is
a step the Hessian is real, hence the gradient is (`Composed.finiteGradientAt`), hence the step is.
-/

open scoped Matrix

namespace InteriorPoint

open Exact

variable {n p : ℕ}

/-! ## Leaves -/

/-- **A function with real gradients**: at real points its gradient, where there is one, has real
entries. Nothing is asked of its value and its Hessian. -/
def Smooth.HasRealGradients (f : Smooth Extended n) : Prop :=
  ∀ (x : Fin n → ℝ) g, (f.gradient (vec x).toArray).outcome = .ok g → Vec.Finite g

/-- Quadratic functions with finite terms have real gradients. -/
theorem Smooth.IsFiniteQuadratic.hasRealGradients {f : Smooth Extended n}
    (hf : f.IsFiniteQuadratic) : f.HasRealGradients := by
  obtain ⟨A, b, c, hformulas⟩ := hf.exists_formulas
  intro x g hg
  obtain ⟨-, hgradient, -⟩ := hformulas x
  obtain rfl := Except.ok.inj (hgradient.symm.trans hg)
  exact fun i => isFinite_iff.mpr ⟨_, get_vec _ i⟩

/-- A function built from such functions may have a gradient that is not real, but then its Hessian
is not real either. -/
theorem Composed.finiteGradientAt_of_hasRealGradients {f : Smooth Extended n}
    (hf : Composed Smooth.HasRealGradients f) (x : Fin n → ℝ) :
    f.FiniteGradientAt (vec x).toArray :=
  hf.finiteGradientAt fun _ hleaf g _ hg _ _ => hleaf x g hg

/-! ## Rounds and runs -/

namespace Newton

variable {s : Solver Extended} {f : Smooth Extended n} {A : Matrix (Fin p) (Fin n) ℝ}
  {tolerance : Extended} {x : Fin n → ℝ} {y : Array Extended}

/-- **A direction under homogeneous equations is a real tangent**, if the gradient is finite where
the Hessian is. -/
theorem exists_tangent_of_outcome_direction (hreg : s.settings.regularization = 0)
    (hf : f.FiniteGradientAt (vec x).toArray) {g : Vec Extended n} {step : Step Extended n}
    (hdirection : (direction s (some (Equations.homogeneous A)) f (vec x).toArray).outcome
      = .ok (g, step)) :
    ∃ v, A *ᵥ v = 0 ∧ step.v = vec v := by
  obtain ⟨hg, H, hH, hstep⟩ := outcome_direction_eq_ok.mp hdirection
  have hHfinite : Mat.Finite H := by
    rw [stepAt_homogeneous] at hstep
    exact Solver.isFinite_of_outcome_solve hstep
  obtain ⟨g, rfl⟩ := exists_liftVec (hf g H hg hH hHfinite)
  obtain ⟨H, rfl⟩ := exists_liftMat hHfinite
  have hstep : (stepAt s (some (Equations.homogeneous A)) (vec g.get) (mat H.toMatrix)).outcome
    = .ok step := hstep
  obtain ⟨v, -, -, htangent, hv, -⟩ := exists_of_outcome_stepAt_homogeneous hreg hstep
  exact ⟨v, htangent, hv⟩

/-- **One round leaves `A·x` as it is.** -/
theorem Round.exists_mulVec_eq (hreg : s.settings.regularization = 0)
    (hf : f.FiniteGradientAt (vec x).toArray)
    (hround : Round s (some (Equations.homogeneous A)) f tolerance (vec x).toArray y) :
    ∃ z, y = (vec z).toArray ∧ A *ᵥ z = A *ᵥ x := by
  obtain ⟨g, step, σ, hdirection, -, hlength, rfl⟩ := round_iff.mp hround
  obtain ⟨v, htangent, hv⟩ := exists_tangent_of_outcome_direction hreg hf hdirection
  obtain ⟨t, rfl⟩ := LineSearch.exists_real_of_outcome_stepLength hlength
  refine ⟨t • v + x, ?_, ?_⟩
  · rw [hv, addScaled_vec]
  · rw [Matrix.mulVec_add, Matrix.mulVec_smul, htangent, smul_zero, zero_add]

/-- **So does a run.** -/
theorem Run.exists_mulVec_eq (hreg : s.settings.regularization = 0)
    (hf : ∀ x : Fin n → ℝ, f.FiniteGradientAt (vec x).toArray) {k : ℕ}
    (hrun : Run s (some (Equations.homogeneous A)) f tolerance k (vec x).toArray y) :
    ∃ z, y = (vec z).toArray ∧ A *ᵥ z = A *ᵥ x := by
  refine hrun.preserves (P := fun y => ∃ z, y = (vec z).toArray ∧ A *ᵥ z = A *ᵥ x)
    ⟨x, rfl, rfl⟩ ?_
  rintro k _ z - ⟨w, rfl, hw⟩ hround
  obtain ⟨z, rfl, hz⟩ := hround.exists_mulVec_eq hreg (hf w)
  exact ⟨z, rfl, hz.trans hw⟩

end Newton

/-- **The law of runs under equations.** For a barrier over functions that are built from functions
with real gradients, under equations with a real matrix `A` and the residual zero, without
regularization: whatever the start `x`, the tolerance and the limit are, every point that a run
reaches has the same `A·x` as its start. So has the point at which the iteration ends, be it a small
step, the limit or a failure that ends it. -/
theorem equations_run_law (s : Solver Extended) (hreg : s.settings.regularization = 0)
    (φ : Barrier Extended n)
    (hφ : ∀ c ∈ φ.objective :: φ.constraints, Composed Smooth.HasRealGradients c)
    (A : Matrix (Fin p) (Fin n) ℝ) (tolerance : Extended) (x : Fin n → ℝ) :
    (∀ k y, Newton.Run s (some (Equations.homogeneous A)) φ.toSmooth tolerance k
        (vec x).toArray y → ∃ z, y = (vec z).toArray ∧ A *ᵥ z = A *ᵥ x) ∧
    ∀ limit, ∃ finish z, (Newton.minimize s (some (Equations.homogeneous A)) φ.toSmooth tolerance
        limit (vec x).toArray).outcome = .ok finish ∧ finish.point = (vec z).toArray ∧
      A *ᵥ z = A *ᵥ x := by
  obtain ⟨hobjective, hconstraints⟩ := List.forall_mem_cons.mp hφ
  have hgradient :=
    (Composed.barrier φ hobjective hconstraints).finiteGradientAt_of_hasRealGradients
  refine ⟨fun k y hrun => hrun.exists_mulVec_eq hreg hgradient, fun limit => ?_⟩
  obtain ⟨finish, k, hfinish, -, hrun⟩ := Newton.exists_finish s
    (some (Equations.homogeneous A)) φ.toSmooth tolerance limit (vec x).toArray
  obtain ⟨z, hz, hequation⟩ := hrun.exists_mulVec_eq hreg hgradient
  exact ⟨finish, z, hfinish, hz, hequation⟩

/-! ### A run from outside the domain -/

/-- Half the square of the distance from the origin, on the half-plane of the points whose first
coordinate is below one. -/
noncomputable def Barrier.halfPlane : Barrier Extended 2 where
  weight := 1
  objective := (Quadratic.halfSquare Nat.two_pos).toSmooth
  constraints := [(Quadratic.ofTerms Nat.two_pos Matrix.isSymm_zero ![1, 0] (-1)).toSmooth]
  weight_finite := rfl
  weight_not_neg := (zero_le_one (α := ℝ)).not_gt

/-- The law for the sum of the coordinates, from a point outside the half-plane. -/
theorem equations_run_law_halfPlane :
    (Solver.standard : Solver Extended).settings.regularization = 0 ∧
    (∀ c ∈ Barrier.halfPlane.objective :: Barrier.halfPlane.constraints,
      Composed Smooth.HasRealGradients c) ∧
    ∀ limit, ∃ finish, ∃ z : Fin 2 → ℝ, (Newton.minimize Solver.standard
        (some (Equations.homogeneous !![1, 1])) Barrier.halfPlane.toSmooth (Scalar.tenth 10) limit
        (vec ![3, -2]).toArray).outcome = .ok finish ∧
      finish.point = (vec z).toArray ∧ z 0 + z 1 = 1 := by
  have hleaves : ∀ c ∈ Barrier.halfPlane.objective :: Barrier.halfPlane.constraints,
      Composed Smooth.HasRealGradients c := by
    refine List.forall_mem_cons.mpr ⟨.leaf ?_, List.forall_mem_singleton.mpr (.leaf ?_)⟩
    · exact (Quadratic.isFiniteQuadratic_ofTerms two_pos _ 0 0).hasRealGradients
    · exact (Quadratic.isFiniteQuadratic_ofTerms two_pos _ ![1, 0] (-1)).hasRealGradients
  refine ⟨rfl, hleaves, fun limit => ?_⟩
  obtain ⟨finish, z, hfinish, hz, hequation⟩ := (equations_run_law Solver.standard rfl
    Barrier.halfPlane hleaves !![1, 1] (Scalar.tenth 10) ![3, -2]).2 limit
  refine ⟨finish, z, hfinish, hz, ?_⟩
  have hsum := congrFun hequation 0
  simp only [Matrix.mulVec, dotProduct, Fin.sum_univ_two, Matrix.of_apply, Matrix.cons_val_zero,
    Matrix.cons_val_one, one_mul] at hsum
  linarith

end InteriorPoint

import InteriorPoint.Proofs.Kkt.BlockSystem
import InteriorPoint.Proofs.Kkt.CheckedPivots

/-!
# A step has a finite system

The pivots that pass the check are defined. None of them is infinite either, since the largest
absolute value would be infinite and with it its positive multiple, which no absolute value exceeds.
So they are real numbers (`Solver.isFinite_get_pivots`), and if there is a step, then the block
matrix is real (`Solver.isFinite_assemble_of_outcome_solveBlock`). In particular a solve under
equations that has a step was given a real Hessian (`Solver.isFinite_of_outcome_solve`).
-/

namespace InteriorPoint

open Scalar

namespace Solver

variable {s : Solver Extended} {n : ℕ}

/-- **No pivot that passes the check is infinite.** -/
theorem isFinite_get_pivots {K : Mat Extended n n} (hvalid : s.settings.validate = .ok ())
    (hK : (s.checkPivots (Lu.factor K)).outcome = .ok ()) (i : Fin n) :
    isFinite ((Lu.factor K).pivots.get i) = true := by
  obtain ⟨-, τ, -, hτ, -, hpos⟩ := Settings.validate_eq_ok_iff_exists.mp hvalid
  have hlist : ∀ e ∈ (Lu.factor K).pivots.toList, isNaN e = false :=
    Vec.forall_mem_toList (isNaN_get_pivots hK)
  have hmem := Vec.get_mem_toList (Lu.factor K).pivots i
  have hsmallest := Vec.smallestAbs_le_of_defined hlist hmem
  have hlarge := Vec.le_largestAbs_of_defined hlist hmem
  cases hpivot : (Lu.factor K).pivots.get i with
  | undefined =>
    rw [hpivot] at hmem
    exact absurd (hlist _ hmem).symm Bool.false_ne_true
  | infinite t =>
    rw [hpivot] at hsmallest hlarge
    have hrefused : Vec.smallestAbs (Lu.factor K).pivots.toList ≤ infinity := hsmallest
    have hproduct : Exact.real τ * Vec.largestAbs (Lu.factor K).pivots.toList = infinity := by
      rw [Extended.infinity_le hlarge]
      exact InfinityRules.mul_infinity (Exact.isFinite_real τ) (Exact.real_lt_real.mpr hpos)
    rw [outcome_checkPivots, hτ, hproduct, if_pos (Or.inr hrefused)] at hK
    exact nomatch hK
  | real a => rfl

/-- **A block solve has a step only if the block matrix is finite**, whatever the regularization. -/
theorem isFinite_assemble_of_outcome_solveBlock {p : ℕ} {H : Mat Extended n n}
    {A : Mat Extended p n} {T : Mat Extended n p} {g : Vec Extended n} {r : Vec Extended p}
    {step : Step Extended n} (hvalid : s.settings.validate = .ok ())
    (hstep : (s.solveBlock H A T g r).outcome = .ok step) (i j : Fin (n + p)) :
    isFinite (Mat.entry (Block.assemble H A T) i j) = true := by
  obtain ⟨-, hpivots, -⟩ := outcome_solveBlock_eq_ok.mp hstep
  exact of_outcome_solveBlock Extended.inherited_isFinite (isFinite_get_pivots hvalid hpivots)
    hstep i j

/-- **So the Hessian of a step under equations is finite.** -/
theorem isFinite_of_outcome_solve {p : ℕ} {H : Mat Extended n n} {a t : Dense Extended}
    {g : Vec Extended n} {r : Vec Extended p} {step : Step Extended n}
    (hstep : (s.solve (.ofMat H) a t g r).outcome = .ok step) (i j : Fin n) :
    isFinite (Mat.entry H i j) = true := by
  obtain ⟨hvalid, -, H', A, T, hH, -, -, -, hblock⟩ := outcome_solve_eq_ok.mp hstep
  obtain rfl := Dense.ofMat_inj hH
  rw [← Block.assemble_castAdd_castAdd H A T i j]
  exact isFinite_assemble_of_outcome_solveBlock hvalid hblock _ _

end Solver

end InteriorPoint

import InteriorPoint.Scalar
import InteriorPoint.Error

/-!
# Settings of the solver

The numbers and switches that a solver works with, and the check that the numbers are usable. A
solver checks its settings at the start of every solve.
-/

namespace InteriorPoint

/-- The settings of a solver. -/
structure Settings (α : Type) [Scalar α] where
  /-- What is added to the diagonal of the Hessian before factoring. Refinement works against the
  system without it. -/
  regularization : α := 0
  /-- The number of refinement steps after the first solve. -/
  refinements : Nat := 2
  /-- The relative size below which a pivot or an eigenvalue counts as zero. -/
  pivotTolerance : α := Scalar.tenth 13
  /-- Whether the signs of the eigenvalues are checked before a block system is solved. -/
  checkInertia : Bool := true
  /-- Whether each solve is recorded. -/
  verbose : Bool := false

namespace Settings

variable {α : Type} [Scalar α]

/-- **The check of the settings**: the regularization has to be finite and not negative, the pivot
tolerance finite and positive. The regularization is looked at first. -/
def validate (s : Settings α) : Except (Error α) Unit :=
  if Scalar.isFinite s.regularization = false ∨ s.regularization < 0 then
    .error (.invalidArgument (.regularization s.regularization))
  else if Scalar.isFinite s.pivotTolerance = false ∨ s.pivotTolerance ≤ 0 then
    .error (.invalidArgument (.pivotTolerance s.pivotTolerance))
  else .ok ()

end Settings

end InteriorPoint

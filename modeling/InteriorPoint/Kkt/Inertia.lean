import InteriorPoint.Answer
import InteriorPoint.Linear.Vec

/-!
# The inertia check

The matrix of a block system has `n` positive and `p` negative eigenvalues, and none that is zero,
exactly when the equations are independent and the Hessian is positive definite on their null
space. The check counts the signs of the eigenvalues, where an eigenvalue that is undefined, or
small against the largest one, counts as zero. Its verdict depends on the list of eigenvalues
alone.
-/

namespace InteriorPoint

/-- How many eigenvalues are positive, negative and zero. -/
structure Inertia where
  /-- The number of positive eigenvalues. -/
  positive : Nat
  /-- The number of negative eigenvalues. -/
  negative : Nat
  /-- The number of eigenvalues that count as zero. -/
  zero : Nat
  deriving DecidableEq

namespace Inertia

variable {α : Type} [Scalar α]

/-- An eigenvalue that counts as zero. -/
def vanishes (tolerance eigenvalue : α) : Prop :=
  Scalar.isNaN eigenvalue = true ∨ Scalar.abs eigenvalue ≤ tolerance

instance (tolerance eigenvalue : α) : Decidable (vanishes tolerance eigenvalue) :=
  inferInstanceAs (Decidable (_ ∨ _))

/-- The counts of a list of eigenvalues. -/
def ofList (tolerance : α) (eigenvalues : List α) : Inertia where
  positive := eigenvalues.countP fun v => ¬ vanishes tolerance v ∧ 0 < v
  negative := eigenvalues.countP fun v => ¬ vanishes tolerance v ∧ ¬ 0 < v
  zero := eigenvalues.countP fun v => vanishes tolerance v

/-- **The check** that the eigenvalues are those of `n` variables under `p` equations. Eigenvalues
that count as zero are reported first. -/
def check (pivotTolerance : α) (n p : Nat) (eigenvalues : List α) : Answer α Unit :=
  let scale := Vec.largestAbs eigenvalues
  let tolerance := pivotTolerance * scale
  let counts := ofList tolerance eigenvalues
  if 0 < counts.zero then do
    Answer.record (.nearZeroEigenvalues counts.zero scale)
    Answer.refuse (.singularSystem (.eigenvalues counts.zero (n + p) tolerance))
  else if counts.positive ≠ n ∨ counts.negative ≠ p then do
    Answer.record (.wrongInertia counts.positive counts.negative n p)
    Answer.refuse (.notPositiveDefinite (.inertia counts.positive counts.negative n p))
  else pure ()

end Inertia

end InteriorPoint

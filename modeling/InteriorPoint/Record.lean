/-!
# Log records

What the evaluations and the solver report on the way, as data. Each kind of record has a fixed
level.
-/

namespace InteriorPoint

/-- The levels of log records, by rising weight. -/
inductive Level where
  | trace
  | debug
  | warn
  deriving DecidableEq

/-- A log record. -/
inductive Record (α : Type) where
  /-- The constraint at `index` is not strictly satisfied; it has the given value. -/
  | outsideDomain (index : Nat) (value : α)
  /-- The matrix has eigenvalues that count as zero against its largest one. -/
  | nearZeroEigenvalues (count : Nat) (scale : α)
  /-- The signs of the eigenvalues are not those expected. -/
  | wrongInertia (positive negative n p : Nat)
  /-- The elimination met a pivot that is too small. -/
  | smallPivot (smallest largest : α)
  /-- The square-root factorization of a matrix of size `n` failed. -/
  | indefinite (n : Nat)
  /-- A block system was solved. -/
  | blockSolved (n p : Nat) (regularization residual : α)
  /-- A system without equations was solved. -/
  | reducedSolved (n : Nat) (regularization residual decrement : α)

/-- The level of a record. -/
def Record.level {α : Type} : Record α → Level
  | .outsideDomain .. => .trace
  | .nearZeroEigenvalues .. | .wrongInertia .. | .smallPivot .. | .indefinite .. => .warn
  | .blockSolved .. | .reducedSolved .. => .debug

end InteriorPoint

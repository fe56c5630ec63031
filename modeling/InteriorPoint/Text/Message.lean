import InteriorPoint.Decimal.Layout
import InteriorPoint.Error

/-!
# Messages of errors

The wording of every error, for the scalars that run. Scalars in a reason are written in plain
decimals, tolerances and sizes of eigenvalues and pivots with an exponent.
-/

namespace InteriorPoint

/-- Why an argument is refused, in words. -/
def InvalidArgument.reason : InvalidArgument Float → String
  | .weight t => "barrier weight must be finite and non-negative, got " ++ Decimal.plain t
  | .regularization v => "static_reg must be finite and non-negative, got " ++ Decimal.plain v
  | .pivotTolerance v => "pivot_tol must be finite and positive, got " ++ Decimal.plain v
  | .notTransposed row col entry transposed =>
    s!"Aᵀ[{col}, {row}] = " ++ Decimal.plain transposed
      ++ s!" does not match A[{row}, {col}] = " ++ Decimal.plain entry
  | .belowDiagonal row col =>
    s!"entry ({row}, {col}) lies below the diagonal of an upper-triangle matrix"
  | .other text => text

/-- Why a system counts as singular, in words. -/
def SingularSystem.reason : SingularSystem Float → String
  | .eigenvalues count size tolerance =>
    s!"{count} of {size} eigenvalues below " ++ Decimal.scientificWith 3 tolerance
  | .pivot smallest tolerance largest =>
    "LU pivot " ++ Decimal.scientificWith 3 smallest ++ " below "
      ++ Decimal.scientificWith 3 tolerance ++ " relative to "
      ++ Decimal.scientificWith 3 largest
  | .zeroPivot => "LU solve failed"
  | .other text => text

/-- Why a Hessian counts as not positive definite, in words. -/
def NotPositiveDefinite.reason : NotPositiveDefinite → String
  | .inertia positive negative n p =>
    s!"KKT inertia is ({positive}, {negative}, 0), expected ({n}, {p}, 0)"
  | .pivot n => s!"Cholesky factorization of {n}x{n} Hessian failed"
  | .other text => text

/-- **The message of an error.** -/
def Error.message : Error Float → String
  | .dimensionMismatch expected actual =>
    s!"Dimension mismatch: expected {expected}, got {actual}"
  | .zeroDimension => "Dimension must be nonzero"
  | .notSymmetric row col tolerance =>
    s!"Matrix is not symmetric: entries ({row}, {col}) and ({col}, {row}) differ by more than "
      ++ Decimal.scientific tolerance
  | .invalidArgument cause => "Invalid argument: " ++ cause.reason
  | .singularSystem cause => "Singular KKT system: " ++ cause.reason
  | .notPositiveDefinite cause => "Hessian not positive definite: " ++ cause.reason

/-- The message of a failure, if it has one. -/
def Failure.message? : Failure Float → Option String
  | .error e => some e.message
  | .wrongLength actual expected =>
    some s!"input has length {actual}, function dimension is {expected}"
  | .noDirection => some "no direction"
  | .outOfRange | .unfinished => none

end InteriorPoint

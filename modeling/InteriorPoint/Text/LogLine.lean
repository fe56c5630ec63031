import InteriorPoint.Decimal.Layout
import InteriorPoint.Record

/-!
# Lines of the log

The wording of log records, for the scalars that run.
-/

namespace InteriorPoint

/-- The name of a level. -/
def Level.name : Level → String
  | .trace => "TRACE"
  | .debug => "DEBUG"
  | .warn => "WARN"

/-- **The text of a record.** -/
def Record.text : Record Float → String
  | .outsideDomain index value =>
    s!"barrier domain violated by constraint {index}: f_i(x) = " ++ Decimal.scientific value
  | .nearZeroEigenvalues count scale =>
    s!"KKT matrix has {count} near-zero eigenvalues (scale "
      ++ Decimal.scientificWith 3 scale ++ ")"
  | .wrongInertia positive negative n p =>
    s!"KKT inertia ({positive}, {negative}, 0), expected ({n}, {p}, 0)"
  | .smallPivot smallest largest =>
    "KKT LU factorization failed: min pivot " ++ Decimal.scientificWith 3 smallest
      ++ ", max pivot " ++ Decimal.scientificWith 3 largest
  | .indefinite n => s!"Cholesky factorization of {n}x{n} Hessian failed"
  | .blockSolved n p regularization residual =>
    s!"block KKT solve: n={n}, p={p}, static_reg=" ++ Decimal.scientificWith 1 regularization
      ++ ", residual=" ++ Decimal.scientificWith 3 residual
  | .reducedSolved n regularization residual decrement =>
    s!"reduced KKT solve: n={n}, static_reg=" ++ Decimal.scientificWith 1 regularization
      ++ ", residual=" ++ Decimal.scientificWith 3 residual ++ ", lambda^2="
      ++ Decimal.scientificWith 3 decrement

end InteriorPoint

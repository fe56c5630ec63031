import InteriorPoint.Decimal.Layout
import InteriorPoint.Function.Barrier
import InteriorPoint.Kkt.Settings

/-!
# Descriptions of values

One-line descriptions of settings and barriers: a name, and the fields between braces.
-/

namespace InteriorPoint

/-- A name with fields, each a label and a text. -/
def describe (name : String) (fields : List (String × String)) : String :=
  name ++ " \x7b " ++ ", ".intercalate (fields.map fun (label, text) => label ++ ": " ++ text)
    ++ " \x7d"

/-- **The description of settings.** -/
def Settings.description (s : Settings Float) : String :=
  describe "KktSettings"
    [("static_reg", Decimal.mixed s.regularization),
     ("refine_iters", toString s.refinements),
     ("pivot_tol", Decimal.mixed s.pivotTolerance),
     ("check_inertia", toString s.checkInertia),
     ("verbose", toString s.verbose)]

/-- **The description of a barrier**: its weight, the number of variables and the number of
constraints. -/
def Barrier.description {n : Nat} (φ : Barrier Float n) : String :=
  describe "LogBarrierFunction"
    [("t", Decimal.mixed φ.weight),
     ("dim", toString n),
     ("num_constraints", toString φ.constraints.length)]

end InteriorPoint

import InteriorPoint.Function.Smooth

/-!
# Two quartic functions of two variables

Functions that are not quadratic, given by formulas of their own. They read the coordinates they
need and do not compare lengths: a point may have more than two coordinates, and a formula fails
only if a coordinate that it reads is missing.

* `Quartic.saddle` is `x₀⁴ + x₀·x₁`, deliberately paired with a wrong Hessian, the identity. It
  is there to be caught by a derivative check.
* `Quartic.ball` is `x₀⁴ + x₁² − 4`, a constraint with a curved boundary.
-/

namespace InteriorPoint

namespace Quartic

variable {α : Type} [Scalar α]

/-- A coordinate of a point, which has to exist. -/
def coordinate (x : Array α) (i : Nat) : Answer α α :=
  match x[i]? with
  | some v => pure v
  | none => Answer.fail .outOfRange

/-- A small whole number as a scalar. -/
def whole (k : Nat) : α := (k : α)

/-- The function `x₀⁴ + x₀·x₁` with the identity in place of its Hessian. -/
def saddle : Smooth α 2 where
  value x := do
    let x₀ ← coordinate x 0
    let x₁ ← coordinate x 1
    let s := x₀ * x₀
    return s * s + x₀ * x₁
  gradient x := do
    let x₀ ← coordinate x 0
    let x₁ ← coordinate x 1
    return #v[whole 4 * (x₀ * (x₀ * x₀)) + x₁, x₀]
  hessian _ := pure Mat.identity

/-- The function `x₀⁴ + x₁² − 4`. -/
def ball : Smooth α 2 where
  value x := do
    let x₀ ← coordinate x 0
    let x₁ ← coordinate x 1
    let s := x₀ * x₀
    return s * s + x₁ * x₁ - whole 4
  gradient x := do
    let x₀ ← coordinate x 0
    let x₁ ← coordinate x 1
    return #v[whole 4 * (x₀ * (x₀ * x₀)), whole 2 * x₁]
  hessian x := do
    let x₀ ← coordinate x 0
    return #v[#v[whole 12 * (x₀ * x₀), 0], #v[0, whole 2]]

end Quartic

end InteriorPoint

import InteriorPoint.Function.Smooth
import InteriorPoint.Linear.Sparse

/-!
# Quadratic functions

The functions `½·xᵀAx + bᵀx + c` with a symmetric matrix `A`. With `A = 0` they are the affine
functions, the usual form of a linear inequality.

Symmetry is only asked for up to a tolerance, and `A` is used as it was given: the gradient is
`Ax + b` and the Hessian is `A`, whatever asymmetry was let through.
-/

namespace InteriorPoint

/-- A quadratic function of `n` variables. -/
structure Quadratic (α : Type) [Scalar α] (n : Nat) where
  /-- The quadratic term. -/
  a : Mat α n n
  /-- The linear term. -/
  b : Vec α n
  /-- The constant term. -/
  c : α
  /-- There is at least one variable. -/
  dim_pos : 0 < n
  /-- No entry of the quadratic term is apart from its transposed one. -/
  symmetric : Dense.firstAsymmetry? a Dense.symmetryTolerance = none

namespace Quadratic

variable {α : Type} [Scalar α] {n : Nat}

/-! ## Construction -/

/-- **The quadratic function with the given terms.** Refused are, in this order: an empty linear
term, a matrix with another number of rows, a matrix that is not square, and a matrix that is not
symmetric within the tolerance. -/
def ofDense (a : Dense α) (b : Array α) (c : α) : Except (Error α) (Quadratic α b.size) :=
  if hn : 0 < b.size then
    match a.shaped b.size b.size with
    | .error e => .error e
    | .ok A =>
      match hA : Dense.firstAsymmetry? A Dense.symmetryTolerance with
      | some (i, j) => .error (.notSymmetric i j Dense.symmetryTolerance)
      | none => .ok { a := A, b := ⟨b, rfl⟩, c := c, dim_pos := hn, symmetric := hA }
  else .error .zeroDimension

/-- The quadratic function whose quadratic term is given by its rows. -/
def ofRows (a : List (Array α)) (b : Array α) (c : α) :
    Except (Error α) (Quadratic α b.size) := do
  ofDense (← Dense.ofRows a) b c

/-- The affine function `bᵀx + c`. -/
def linear (b : Array α) (c : α) : Except (Error α) (Quadratic α b.size) :=
  ofDense (Dense.ofMat (Mat.zero : Mat α b.size b.size)) b c

/-- The quadratic function whose quadratic term is given by its upper triangle. -/
def ofUpper (p : Sparse α) (b : Array α) (c : α) : Except (Failure α) (Quadratic α b.size) :=
  if p.rows = p.cols then do
    let a ← p.expand
    match ofDense (Dense.ofMat a) b c with
    | .ok q => .ok q
    | .error e => .error (.error e)
  else .error (.error (.dimensionMismatch p.rows p.cols))

/-! ## Evaluation -/

/-- The value `½·xᵀAx + bᵀx + c`. -/
def valueAt (f : Quadratic α n) (x : Vec α n) : α :=
  Scalar.half * Vec.dot (Mat.mulVec f.a x) x + Vec.dot f.b x + f.c

/-- The gradient `Ax + b`. -/
def gradientAt (f : Quadratic α n) (x : Vec α n) : Vec α n := Vec.add (Mat.mulVec f.a x) f.b

/-- **A quadratic function as a smooth function.** The Hessian is the quadratic term, at every
point. -/
def toSmooth (f : Quadratic α n) : Smooth α n :=
  Smooth.ofFormulas f.valueAt f.gradientAt fun _ => f.a

/-- Equality of the terms, entry by entry, by the scalar's own equality. -/
def same {m : Nat} (f : Quadratic α m) (g : Quadratic α n) : Bool :=
  decide (m = n) && (f.a.toList.map Vector.toList == g.a.toList.map Vector.toList)
    && (f.b.toList == g.b.toList) && (f.c == g.c)

end Quadratic

end InteriorPoint

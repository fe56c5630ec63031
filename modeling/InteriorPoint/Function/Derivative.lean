import InteriorPoint.Function.Smooth

/-!
# Derivatives by central differences

The contract of a smooth function can be tested at a point: central differences of the value are
compared with the gradient, and central differences of the gradient with the Hessian. Coordinate
`j` is moved by `hⱼ = 10⁻⁶·max(|xⱼ|, 1)` to both sides, the upper side evaluated first, while all
other coordinates stay as they are.

The result of a test is the largest relative error of each derivative. An undefined error counts
as infinite, so that it cannot get lost among the others.
-/

namespace InteriorPoint

/-- The largest relative errors found by a test of derivatives. -/
structure DerivativeCheck (α : Type) where
  /-- The largest `|gᵢ − g̃ᵢ| / max(1, |gᵢ|)`. -/
  gradientError : α
  /-- The largest `|Hᵢⱼ − H̃ᵢⱼ| / max(1, |Hᵢⱼ|)`. -/
  hessianError : α

/-- True if both errors are within the tolerance. -/
def DerivativeCheck.passes {α : Type} [Scalar α] (c : DerivativeCheck α) (tolerance : α) : Bool :=
  decide (c.gradientError ≤ tolerance) && decide (c.hessianError ≤ tolerance)

namespace Derivative

variable {α : Type} [Scalar α] {n : Nat}

/-! ## Differences -/

/-- How far a coordinate is moved. -/
def stepSize (v : α) : α := Scalar.tenth 6 * Scalar.larger (Scalar.abs v) 1

/-- The slope between two values that lie `2h` apart. -/
def slope (upper lower h : α) : α := (upper - lower) / (Scalar.two * h)

/-- What a function of points gives on both sides of a point `x` along coordinate `j`, and the
working copy of the point afterwards. The copy is moved to the upper side, to the lower side and
back to `x`; its other coordinates are left alone. -/
def probe {m : Nat} {β : Type} (f : Array α → Answer α β) (x work : Vec α m) (j : Fin m) :
    Answer α (β × β × Vec α m) := do
  let h := stepSize (x.get j)
  let work := work.set j (x.get j + h) j.isLt
  let upper ← f work.toArray
  let work := work.set j (x.get j - h) j.isLt
  let lower ← f work.toArray
  return (upper, lower, work.set j (x.get j) j.isLt)

/-- **The first `k` coordinates visited in order**, with one working copy of the point for all of
them: what `finish` makes of the two sides of each, and the copy. -/
def sweep {m : Nat} {β γ : Type} (f : Array α → Answer α β)
    (finish : Fin m → β → β → Answer α γ) (x : Vec α m) :
    (k : Nat) → k ≤ m → Answer α (Vector γ k × Vec α m)
  | 0, _ => return (#v[], x)
  | k + 1, h => do
    let (done, work) ← sweep f finish x k (Nat.le_of_succ_le h)
    let (upper, lower, work) ← probe f x work ⟨k, h⟩
    return (done.push (← finish ⟨k, h⟩ upper lower), work)

/-- **The gradient by central differences of the value**, coordinate by coordinate. -/
def gradient {m : Nat} (f : Smooth α n) (x : Vec α m) : Answer α (Vec α m) := do
  let finish (j : Fin m) (upper lower : α) : Answer α α :=
    return slope upper lower (stepSize (x.get j))
  return (← sweep f.value finish x m (Nat.le_refl m)).1

/-- One column of the Hessian from the gradients on both sides, which have to be as long as the
point. -/
def hessianColumn {m : Nat} (x : Vec α m) (j : Fin m) (upper lower : Vec α n) :
    Answer α (Vec α m) :=
  if hn : n = m then
    return Vector.ofFn fun i =>
      slope (upper.get (i.cast hn.symm)) (lower.get (i.cast hn.symm)) (stepSize (x.get j))
  else Answer.fail .outOfRange

/-- **The Hessian by central differences of the gradient**: the mean of the matrix with these
columns and of its transpose. -/
def hessian {m : Nat} (f : Smooth α n) (x : Vec α m) : Answer α (Mat α m m) := do
  let (columns, _) ← sweep f.gradient (hessianColumn x) x m (Nat.le_refl m)
  return Mat.of fun i j => (Mat.entry columns j i + Mat.entry columns i j) * Scalar.half

/-! ## Comparison -/

/-- The relative error of an approximate value, infinite if undefined. -/
def relativeError (exact approx : α) : α :=
  let e := Scalar.abs (exact - approx) / Scalar.larger (Scalar.abs exact) 1
  if Scalar.isNaN e then Scalar.infinity else e

/-- The largest relative error over a list of exact and approximate values. -/
def largestError (pairs : List (α × α)) : α :=
  (pairs.map fun (exact, approx) => relativeError exact approx).foldl Scalar.larger 0

/-- **The test of both derivatives** of a function at a point. -/
def check (f : Smooth α n) (x : Array α) : Answer α (DerivativeCheck α) := do
  let g ← f.gradient x
  let g' ← gradient f x.toVector
  let H ← f.hessian x
  let H' ← hessian f x.toVector
  return { gradientError := largestError (g.toList.zip g'.toList)
           hessianError := largestError ((Mat.byColumns H).zip (Mat.byColumns H')) }

end Derivative

end InteriorPoint

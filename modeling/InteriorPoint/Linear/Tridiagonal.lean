import InteriorPoint.Linear.Mat

/-!
# Tridiagonal form

A symmetric matrix is brought to tridiagonal form by reflections, one column at a time. Only the
lower triangle of the matrix is read and kept up to date. The eigenvalues stay the same, and
nothing else of the reflections is recorded.
-/

namespace InteriorPoint

/-- A symmetric tridiagonal matrix. -/
structure Tridiagonal (α : Type) (n : Nat) where
  /-- The diagonal. -/
  main : Vec α n
  /-- Entry `i` stands beside the diagonal, between rows `i` and `i + 1`; the last one is not
  used. -/
  off : Vec α n

namespace Tridiagonal

variable {α : Type} [Scalar α] {n : Nat}

/-- The modulus and the sign of a scalar; what is not at least zero counts as negative. -/
def modulusSign (x : α) : α × α := if 0 ≤ x then (x, 1) else (-x, -1)

/-- A vector of which only the part from some position on counts, as the axis of the reflection
that maps that part to a multiple of its first coordinate, and what that coordinate becomes.
There is no axis if the part is zero. -/
def reflection (x : Vec α n) (s : Fin n) : Option (Vec α n) × α :=
  let square := Vec.dotFrom s x x
  let size := Scalar.sqrt square
  let (modulus, sign) := modulusSign (x.get s)
  let signed := sign * size
  let factor := (square + modulus * size) * Scalar.two
  if factor == 0 then (none, signed)
  else
    let axis := (x.set s (x.get s + signed) s.isLt).map (· / Scalar.sqrt factor)
    let length := Scalar.sqrt (Vec.dotFrom s axis axis)
    (some (axis.map (· / length)), -signed)

/-- Twice the product of the trailing block from row and column `s` on with a vector, read from
the lower triangle. A column contributes to its own entry by an inner product, and to the entries
below by a multiple. -/
def doubledProduct (M : Mat α n n) (x : Vec α n) (s : Fin n) : Vec α n :=
  Fin.foldl n
    (fun p j =>
      if j < s then p
      else if j = s then
        Vector.ofFn fun r =>
          let q := Scalar.two * x.get j * Mat.entry M r j
          if r = j then q + Scalar.two * Vec.dotFrom (j + 1) (Mat.column M j) x else q
      else
        Vector.ofFn fun r =>
          if r < j then p.get r
          else if r = j then p.get r + Scalar.two * Vec.dotFrom j (Mat.column M j) x
          else Scalar.two * x.get j * Mat.entry M r j + p.get r)
    Vec.zero

/-- The matrix `c·x·yᵀ` added to the lower triangle of the trailing block from `s` on. -/
def addOuter (s : Fin n) (c : α) (x y : Vec α n) (M : Mat α n n) : Mat α n n :=
  Mat.of fun r j =>
    if s ≤ j ∧ j ≤ r then c * y.get j * x.get r + Mat.entry M r j else Mat.entry M r j

/-- The trailing block from `s` on, reflected from both sides. -/
def reflectBlock (s : Fin n) (axis : Vec α n) (M : Mat α n n) : Mat α n n :=
  let p := doubledProduct M axis s
  let d := Vec.dotFrom s axis p
  addOuter s (d * Scalar.two) axis axis (addOuter s (-1) axis p (addOuter s (-1) p axis M))

/-- The matrix and the entries beside its diagonal after the reflections of the first `k`
columns. -/
def after (M : Mat α n n) : (k : Nat) → k + 1 ≤ n → Mat α n n × Vec α n
  | 0, _ => (M, Vec.zero)
  | k + 1, h =>
    let (M, off) := after M k (Nat.le_of_succ_le h)
    let s : Fin n := ⟨k + 1, h⟩
    let (axis, entry) := reflection (Mat.column M ⟨k, Nat.lt_of_succ_lt h⟩) s
    ((match axis with
      | some axis => reflectBlock s axis M
      | none => M), off.set k entry (Nat.lt_of_succ_lt h))

/-- **The tridiagonal form** of the symmetric matrix with the given lower triangle. -/
def ofLowerTriangle (M : Mat α n n) : Tridiagonal α n :=
  match n, M with
  | 0, _ => { main := Vec.zero, off := Vec.zero }
  | n + 1, M =>
    let (M, off) := after M n (Nat.le_refl (n + 1))
    { main := Mat.diagonal M, off := off }

end Tridiagonal

end InteriorPoint

import InteriorPoint.Linear.Mat

/-!
# Square-root factors

The lower triangular factor `L` of a positive definite matrix `A = L·Lᵀ`, found column by column
from the lower triangle of `A`. The factorization stops at the first pivot that is zero, negative
or undefined.

`Cholesky.after? A k` is the matrix after the first `k` columns: the factor in those columns, the
given matrix elsewhere.
-/

namespace InteriorPoint

/-- A matrix that holds a lower triangular factor in its lower triangle. -/
structure Cholesky (α : Type) (n : Nat) where
  /-- The factor; what stands above the diagonal has no meaning. -/
  packed : Mat α n n

namespace Cholesky

variable {α : Type} [Scalar α] {n : Nat}

/-! ## Factoring -/

/-- A column before column `j`. -/
def before (j : Fin n) (k : Fin j.val) : Fin n := k.castLE (Nat.le_of_lt j.isLt)

/-- Entry `(r, j)` with the products of the first `j` columns taken off, one column at a time. -/
def reduced (L : Mat α n n) (j r : Fin n) : α :=
  Fin.foldl j.val
    (fun acc k => -Mat.entry L j (before j k) * Mat.entry L r (before j k) + acc) (Mat.entry L r j)

/-- The factor of column `j`, given those of the columns before it. -/
def column? (L : Mat α n n) (j : Fin n) : Option (Mat α n n) :=
  let d := reduced L j j
  if d == 0 ∨ ¬ 0 ≤ d then none
  else
    let root := Scalar.sqrt d
    some (Mat.of fun r c =>
      if c = j then
        if r < j then Mat.entry L r j else if r = j then root else reduced L j r / root
      else Mat.entry L r c)

/-- The factorization of the first `k` columns. -/
def after? (A : Mat α n n) : (k : Nat) → k ≤ n → Option (Mat α n n)
  | 0, _ => some A
  | k + 1, h => (after? A k (Nat.le_of_succ_le h)).bind fun L => column? L ⟨k, h⟩

/-- **The factor of a matrix**, if all pivots are positive. -/
def factor? (A : Mat α n n) : Option (Cholesky α n) :=
  (after? A n (Nat.le_refl n)).map Cholesky.mk

/-! ## Solving -/

/-- Entry `i` divided by the diagonal, and its multiples taken off the entries below it. -/
def lowerStep (F : Cholesky α n) (b : Vec α n) (i : Fin n) : Vec α n :=
  let q := b.get i / Mat.entry F.packed i i
  Vector.ofFn fun r =>
    if i < r then -q * Mat.entry F.packed r i + b.get r else if r = i then q else b.get r

/-- Forward substitution through the first `k` columns of the factor. -/
def lower (F : Cholesky α n) (b : Vec α n) : (k : Nat) → k ≤ n → Vec α n
  | 0, _ => b
  | k + 1, h => F.lowerStep (lower F b k (Nat.le_of_succ_le h)) ⟨k, h⟩

/-- Entry `i` less the inner product of the later entries with column `i`, divided by the
diagonal. -/
def upperStep (F : Cholesky α n) (b : Vec α n) (i : Fin n) : Vec α n :=
  let rest := Vec.dotFrom (i + 1) (Mat.column F.packed i) b
  b.set i ((b.get i - rest) / Mat.entry F.packed i i) i.isLt

/-- Back substitution through the rows before row `k` of the transposed factor, the last of them
first. -/
def upper (F : Cholesky α n) (b : Vec α n) : (k : Nat) → k ≤ n → Vec α n
  | 0, _ => b
  | k + 1, h => upper F (F.upperStep b ⟨k, h⟩) k (Nat.le_of_succ_le h)

/-- The solution of the factored system. -/
def solve (F : Cholesky α n) (b : Vec α n) : Vec α n :=
  F.upper (F.lower b n (Nat.le_refl n)) n (Nat.le_refl n)

end Cholesky

end InteriorPoint

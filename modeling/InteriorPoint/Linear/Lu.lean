import InteriorPoint.Linear.Mat

/-!
# Elimination with row exchanges

The triangular factors of a square matrix, found column by column. The pivot of a column is the
first entry of largest absolute value on or below the diagonal; a column whose pivot is zero is
passed over. Both factors are kept in one matrix: the upper factor on and above the diagonal, the
multipliers of the lower one, whose diagonal is one, below it.

`Lu.after A k` is the state after the first `k` columns, so that what elimination keeps can be
shown by induction on `k`.
-/

namespace InteriorPoint

/-- The state of an elimination: the packed factors and the row exchanges made so far. -/
structure Lu (α : Type) (n : Nat) where
  /-- The upper factor on and above the diagonal, the multipliers below it. -/
  packed : Mat α n n
  /-- The row exchanges, in the order they were made. -/
  swaps : List (Fin n × Fin n)

namespace Lu

variable {α : Type} [Scalar α] {n : Nat}

/-! ## Factoring -/

/-- **The pivot row of column `i`**: a scan from row `i` down, in which a row replaces the
candidate only if its entry is strictly larger in absolute value. -/
def pivotRow (A : Mat α n n) (i : Fin n) : Fin n :=
  Fin.foldl n
    (fun best r =>
      if i < r ∧ Scalar.abs (Mat.entry A best i) < Scalar.abs (Mat.entry A r i) then r else best) i

/-- A row below the pivot row, cleared in column `i`: the multiplier takes the place of the
cleared entry, and to its right the multiple of the pivot row is taken off. -/
def clearedRow (pivot row : Vec α n) (i : Fin n) (inverse : α) : Vec α n :=
  let multiplier := row.get i * inverse
  Vector.ofFn fun c =>
    if c < i then row.get c
    else if c = i then multiplier
    else -pivot.get c * multiplier + row.get c

/-- The elimination of column `i`: exchange the pivot row into place and clear the rows below.
Nothing happens if the pivot is zero. -/
def eliminate (F : Lu α n) (i : Fin n) : Lu α n :=
  let p := pivotRow F.packed i
  let d := Mat.entry F.packed p i
  if d == 0 then F
  else
    let A := Mat.swapRows F.packed i p
    let inverse := 1 / d
    { packed := Vector.ofFn fun r =>
        if i < r then clearedRow (A.get i) (A.get r) i inverse else A.get r
      swaps := F.swaps ++ [(i, p)] }

/-- The elimination of the first `k` columns. -/
def after (A : Mat α n n) : (k : Nat) → k ≤ n → Lu α n
  | 0, _ => { packed := A, swaps := [] }
  | k + 1, h => (after A k (Nat.le_of_succ_le h)).eliminate ⟨k, h⟩

/-- The factors of a matrix. -/
def factor (A : Mat α n n) : Lu α n := after A n (Nat.le_refl n)

/-- The diagonal of the upper factor. -/
def pivots (F : Lu α n) : Vec α n := Mat.diagonal F.packed

/-! ## Solving -/

/-- The row exchanges applied to a right-hand side. -/
def permute (F : Lu α n) (b : Vec α n) : Vec α n :=
  F.swaps.foldl (fun b s => b.swap s.1 s.2 s.1.isLt s.2.isLt) b

/-- The multiples of entry `i` taken off the entries below it. -/
def lowerStep (F : Lu α n) (b : Vec α n) (i : Fin n) : Vec α n :=
  Vector.ofFn fun r => if i < r then -b.get i * Mat.entry F.packed r i + b.get r else b.get r

/-- Forward substitution through the first `k` columns of the lower factor. -/
def lower (F : Lu α n) (b : Vec α n) : (k : Nat) → k ≤ n → Vec α n
  | 0, _ => b
  | k + 1, h => F.lowerStep (lower F b k (Nat.le_of_succ_le h)) ⟨k, h⟩

/-- Entry `i` divided by its pivot, and its multiples taken off the entries above it; nothing if
the pivot is zero. -/
def upperStep? (F : Lu α n) (b : Vec α n) (i : Fin n) : Option (Vec α n) :=
  if Mat.entry F.packed i i == 0 then none
  else
    let q := b.get i / Mat.entry F.packed i i
    some (Vector.ofFn fun r =>
      if r < i then -q * Mat.entry F.packed r i + b.get r else if r = i then q else b.get r)

/-- Back substitution through the columns before column `k`, the last of them first. -/
def upper? (F : Lu α n) (b : Vec α n) : (k : Nat) → k ≤ n → Option (Vec α n)
  | 0, _ => some b
  | k + 1, h => (F.upperStep? b ⟨k, h⟩).bind fun b => upper? F b k (Nat.le_of_succ_le h)

/-- **The solution of the factored system**, unless a pivot is zero. -/
def solve? (F : Lu α n) (b : Vec α n) : Option (Vec α n) :=
  F.upper? (F.lower (F.permute b) n (Nat.le_refl n)) n (Nat.le_refl n)

end Lu

end InteriorPoint

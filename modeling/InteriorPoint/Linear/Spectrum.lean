import InteriorPoint.Linear.Tridiagonal

/-!
# Eigenvalues of symmetric matrices

The eigenvalues of a symmetric matrix, with multiplicity: scale the matrix by its largest entry,
bring it to tridiagonal form, and let shifted rotations drive the entries beside the diagonal to
zero, from the last one up. Only the lower triangle is read, except by the scaling.

An entry beside the diagonal counts as zero once it is small against its two neighbours on the
diagonal (`negligible`). A block of two rows is solved in closed form. The number of sweeps is
bounded; a run that needs more, or that meets an undefined discriminant, has no result.
-/

namespace InteriorPoint

namespace Spectrum

variable {α : Type} [Scalar α] {n : Nat}

/-- The diagonal of a tridiagonal matrix and the entries beside it, as the sweeps change them. -/
abbrev Band (α : Type) (n : Nat) := Tridiagonal α n

/-- The entry of a vector at a position, zero outside. -/
def entry (x : Vec α n) (i : Nat) : α := x[i]?.getD 0

/-- The vector with the entry at a position replaced; unchanged if there is no such position. -/
def put (x : Vec α n) (i : Nat) (v : α) : Vec α n := x.setIfInBounds i v

/-! ## Splitting -/

/-- The size below which the entry between rows `i` and `i + 1` counts as zero. -/
def threshold (T : Band α n) (i : Nat) : α :=
  Scalar.epsilon * (Scalar.abs (entry T.main (i + 1)) + Scalar.abs (entry T.main i))

/-- The last row, at or before the given one, that is still coupled to the row before it; zero if
there is none. -/
def lastCoupled (T : Band α n) : Nat → Nat
  | 0 => 0
  | q + 1 => if threshold T q < Scalar.abs (entry T.off q) then q + 1 else lastCoupled T q

/-- The first row of the block that a row belongs to, going up to the next entry that counts as
zero, which is then set to zero. -/
def blockStart (T : Band α n) : Nat → Nat × Band α n
  | 0 => (0, T)
  | s + 1 =>
    if entry T.off s == 0 ∨ Scalar.abs (entry T.off s) ≤ threshold T s then
      (s + 1, { T with off := put T.off s 0 })
    else blockStart T s

/-- The last block of coupled rows that ends at or before the given row; the first row alone if
no rows are coupled. -/
def lastBlock (T : Band α n) (last : Nat) : (Nat × Nat) × Band α n :=
  match lastCoupled T last with
  | 0 => ((0, 0), T)
  | q + 1 =>
    let (s, T) := blockStart T q
    ((s, q + 1), T)

/-! ## Sweeping -/

/-- The shift of a sweep: the eigenvalue of the last two rows that lies nearer to the last
diagonal entry. -/
def shift (T : Band α n) (last : Nat) : α :=
  let corner := entry T.main last
  let off := entry T.off (last - 1)
  let square := off * off
  if square == 0 then corner
  else
    let h := (entry T.main (last - 1) - corner) * Scalar.half
    corner - square / (h + Scalar.signum h * Scalar.sqrt (h * h + square))

/-- The rotations of one sweep, from row `i` on, `count` of them at most, up to row `last`. The
rotation at row `i` is the one that turns `(x, y)` onto the first axis; a zero `y` ends the
sweep. -/
def rotations (first last : Nat) : (count : Nat) → (i : Nat) → (x y : α) → Band α n → Band α n
  | 0, _, _, _, T => T
  | count + 1, i, x, y, T =>
    if y == 0 then T
    else
      let (modulus, sign) := Tridiagonal.modulusSign x
      let size := Scalar.sqrt (modulus * modulus + y * y)
      let c := modulus / size
      let s := -y / (sign * size)
      let off := if first < i then put T.off (i - 1) (sign * size) else T.off
      let mii := entry T.main i
      let mjj := entry T.main (i + 1)
      let mij := entry off i
      let cc := c * c
      let ss := s * s
      let cs := c * s
      let b := cs * Scalar.two * mij
      let main := put (put T.main i (cc * mii + ss * mjj - b)) (i + 1) (ss * mii + cc * mjj + b)
      let x := cs * (mii - mjj) + mij * (cc - ss)
      let off := put off i x
      if i + 1 = last then { main := main, off := off }
      else
        let next := entry off (i + 1)
        rotations first last count (i + 1) x (-s * next)
          { main := main, off := put off (i + 1) (next * c) }

/-- One sweep over the block from row `first` to row `last`. -/
def sweep (first last : Nat) (T : Band α n) : Band α n :=
  rotations first last (last - first) first (entry T.main first - shift T last)
    (entry T.off first) T

/-- A block of two rows in diagonal form; nothing if the discriminant is not at least zero. -/
def splitPair? (first last : Nat) (T : Band α n) : Option (Band α n) :=
  let p := entry T.main first
  let q := entry T.main last
  let off := entry T.off first
  let half := (p - q) * Scalar.half
  let discriminant := off * off + half * half
  if 0 ≤ discriminant then
    let middle := (p + q) * Scalar.half
    let root := Scalar.sqrt discriminant
    some { T with main := put (put T.main first (middle + root)) last (middle - root) }
  else none

/-- The diagonal after the blocks up to the given one are split, in at most `fuel` steps. -/
def diagonalize? : (fuel : Nat) → (block : Nat × Nat) → Band α n → Option (Vec α n)
  | 0, _, _ => none
  | fuel + 1, (first, last), T =>
    if first = last then some T.main
    else if last - first = 1 then
      (splitPair? first last T).bind fun T =>
        let (block, T) := lastBlock T (last - 1)
        diagonalize? fuel block T
    else
      let T := sweep first last T
      let small := Scalar.abs (entry T.off (last - 1)) ≤
        Scalar.epsilon *
          (Scalar.abs (entry T.main (last - 1)) + Scalar.abs (entry T.main last))
      let (block, T) := lastBlock T (if small then last - 1 else last)
      diagonalize? fuel block T

/-- The number of steps after which a run is given up. -/
def stepLimit (n : Nat) : Nat := 1000 * (n + 1)

/-- **The eigenvalues of a symmetric matrix**, in the order in which the sweeps leave them. -/
def eigenvalues? (M : Mat α n n) : Option (Vec α n) :=
  let scale := Vec.largestAbs (Mat.byColumns M)
  let M := if scale == 0 then M else Mat.mapEntries (· / scale) M
  let (block, T) := lastBlock (Tridiagonal.ofLowerTriangle M) (n - 1)
  (diagonalize? (stepLimit n) block T).map fun d => d.map (· * scale)

end Spectrum

end InteriorPoint

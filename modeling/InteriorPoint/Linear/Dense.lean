import InteriorPoint.Linear.Mat
import InteriorPoint.Error

/-!
# Dense matrices and their checks

A dense matrix carries its shape. The checks of this module stand between matrices as they are
handed in and the matrices of fixed shape that the algorithms work on: a check of a shape returns
the matrix at that shape.

Entries are compared with a tolerance that is absolute for small entries and relative for large
ones (`apart`). Of several pairs that are apart, the first one, row by row, is reported.
-/

namespace InteriorPoint

/-- A matrix together with its shape. -/
structure Dense (α : Type) where
  /-- The number of rows. -/
  rows : Nat
  /-- The number of columns. -/
  cols : Nat
  /-- The entries. -/
  entries : Mat α rows cols

namespace Dense

variable {α : Type}

/-- A matrix of fixed shape as a dense matrix. -/
def ofMat {m n : Nat} (M : Mat α m n) : Dense α := { rows := m, cols := n, entries := M }

/-- The entry at a position, if the position is inside the shape. -/
def get? (m : Dense α) (i j : Nat) : Option α :=
  if h : i < m.rows ∧ j < m.cols then some (Mat.entry m.entries ⟨i, h.1⟩ ⟨j, h.2⟩) else none

/-- The transposed matrix. -/
def transpose (m : Dense α) : Dense α := ofMat (Mat.transpose m.entries)

@[simp]
theorem get?_ofMat {m n : Nat} (M : Mat α m n) (i : Fin m) (j : Fin n) :
    (ofMat M).get? i j = some (Mat.entry M i j) :=
  dif_pos (show (i : Nat) < m ∧ (j : Nat) < n from ⟨i.isLt, j.isLt⟩)

/-! ## Shapes -/

/-- A list of scalars as a vector of the given length. -/
def row (n : Nat) (x : Array α) : Except (Error α) (Vec α n) :=
  if h : x.size = n then .ok ⟨x, h⟩ else .error (.dimensionMismatch n x.size)

/-- **A matrix from its rows**, as long as the first one; the first row of another length is
refused. -/
def ofRows (rows : List (Array α)) : Except (Error α) (Dense α) := do
  let cols := (rows.head?.map Array.size).getD 0
  let rows ← rows.mapM (row cols)
  return { rows := rows.length, cols := cols, entries := ⟨rows.toArray, rfl⟩ }

/-- The place of an entry when the rows are laid end to end. -/
theorem flat_lt {rows cols : Nat} (i : Fin rows) (j : Fin cols) :
    i.val * cols + j.val < rows * cols := by
  have h : (i.val + 1) * cols ≤ rows * cols := Nat.mul_le_mul_right cols i.isLt
  rw [Nat.succ_mul] at h
  omega

/-- The matrix of the given shape with the given entries, row after row; nothing if their number
does not fit the shape. -/
def ofEntries? (rows cols : Nat) (entries : Array α) : Option (Dense α) :=
  if h : entries.size = rows * cols then
    let entries : Vec α (rows * cols) := ⟨entries, h⟩
    some (ofMat (Mat.of fun (i : Fin rows) (j : Fin cols) =>
      entries.get ⟨i * cols + j, flat_lt i j⟩))
  else none

/-- The matrix at the given shape, the number of rows compared first. -/
def shaped (m : Dense α) (rows cols : Nat) : Except (Error α) (Mat α rows cols) :=
  if hr : m.rows = rows then
    if hc : m.cols = cols then
      .ok (Mat.of fun i j => Mat.entry m.entries (i.cast hr.symm) (j.cast hc.symm))
    else .error (.dimensionMismatch cols m.cols)
  else .error (.dimensionMismatch rows m.rows)

/-- The matrix as a square one. -/
def square (m : Dense α) : Except (Error α) (Mat α m.rows m.rows) :=
  if hc : m.rows = m.cols then
    .ok (Mat.of fun i j => Mat.entry m.entries i (j.cast hc))
  else .error (.dimensionMismatch m.rows m.cols)

@[simp]
theorem shaped_ofMat {m n : Nat} (M : Mat α m n) : (ofMat M).shaped m n = .ok M := by
  rw [shaped, dif_pos (show (ofMat M).rows = m from rfl),
    dif_pos (show (ofMat M).cols = n from rfl)]
  exact congrArg Except.ok (Mat.ext_entry fun i j => Mat.entry_of _ i j)

@[simp]
theorem square_ofMat {n : Nat} (M : Mat α n n) : (ofMat M).square = .ok M :=
  (dif_pos rfl).trans (congrArg Except.ok (Mat.ext_entry fun i j => Mat.entry_of _ i j))

/-- A shape is met exactly by the matrices that have it. -/
theorem shaped_eq_ok {m : Dense α} {rows cols : Nat} {M : Mat α rows cols} :
    m.shaped rows cols = .ok M ↔ m = ofMat M := by
  constructor
  · obtain ⟨r, c, N⟩ := m
    intro h
    unfold shaped at h
    split at h
    · split at h
      · rename_i hr hc
        dsimp only at hr hc
        subst hr hc
        have h := Except.ok.inj h
        subst h
        exact congrArg ofMat (Mat.ext_entry fun i j => (Mat.entry_of _ i j).symm)
      · exact nomatch h
    · exact nomatch h
  · rintro rfl
    exact shaped_ofMat M

/-- A matrix of fixed shape is determined by the dense matrix. -/
theorem ofMat_inj {m n : Nat} {M N : Mat α m n} (h : ofMat M = ofMat N) : M = N :=
  Except.ok.inj ((shaped_ofMat M).symm.trans (shaped_eq_ok.mpr h))

/-! ## Comparisons with a tolerance -/

variable [Scalar α]

/-- The tolerance for the symmetry of a matrix that is handed in. -/
def symmetryTolerance : α := Scalar.tenth 6

/-- **Two entries are apart** if their distance exceeds the tolerance times the larger of one and
their absolute values, or is undefined. -/
def apart (tolerance x y : α) : Bool :=
  let distance := Scalar.abs (x - y)
  let scale := Scalar.larger (Scalar.larger (Scalar.abs x) (Scalar.abs y)) 1
  Scalar.isNaN distance || decide (tolerance * scale < distance)

/-- The positions above the diagonal, row by row. -/
def aboveDiagonal (n : Nat) : List (Fin n × Fin n) :=
  (List.finRange n).flatMap fun i => ((List.finRange n).filter (i < ·)).map (i, ·)

/-- The positions of a matrix, row by row. -/
def positions (m n : Nat) : List (Fin m × Fin n) :=
  (List.finRange m).flatMap fun i => (List.finRange n).map (i, ·)

/-- The first position above the diagonal whose entry is apart from the transposed one. -/
def firstAsymmetry? {n : Nat} (M : Mat α n n) (tolerance : α) : Option (Fin n × Fin n) :=
  (aboveDiagonal n).find? fun (i, j) => apart tolerance (Mat.entry M i j) (Mat.entry M j i)

/-- The matrix as a square one in which no entry is apart from the transposed one. -/
def symmetric (m : Dense α) (tolerance : α) : Except (Error α) (Mat α m.rows m.rows) := do
  let M ← m.square
  match firstAsymmetry? M tolerance with
  | some (i, j) => throw (.notSymmetric i j tolerance)
  | none => return M

/-- The check that an entry of `m` is not apart from the transposed entry of `t`, which has to
exist. -/
def checkTransposed (m t : Dense α) (tolerance : α) (i : Fin m.rows) (j : Fin m.cols) :
    Except (Failure α) Unit :=
  match t.get? j i with
  | none => .error .outOfRange
  | some y =>
    let x := Mat.entry m.entries i j
    if apart tolerance x y then .error (.error (.invalidArgument (.notTransposed i j x y)))
    else .ok ()

/-- **The check that `t` is the transpose of `m`** within the tolerance. The entries of `m` are
visited row by row. -/
def checkTranspose (m t : Dense α) (tolerance : α) : Except (Failure α) Unit :=
  (positions m.rows m.cols).forM fun (i, j) => checkTransposed m t tolerance i j

/-! ## Residuals -/

/-- The norm of `m·x - b`, if the shapes fit. -/
def residualNorm (m : Dense α) (x b : Array α) : Except (Failure α) α :=
  if hx : x.size = m.cols then
    if hb : b.size = m.rows then .ok (Mat.residualNorm m.entries ⟨x, hx⟩ ⟨b, hb⟩)
    else .error .outOfRange
  else .error .outOfRange

end Dense

end InteriorPoint

import InteriorPoint.Linear.Dense

/-!
# Sparse symmetric matrices

A symmetric matrix may be handed in as the entries of its upper triangle. The coordinates of an
entry are machine words. Entries at the same coordinates are summed, in the order in which they
are listed; a sum is stored even if it is zero.

A sparse matrix is a list of stored entries, at most one per position, in storage order: column by
column or row by row. `Sparse.expand` reads it as the upper triangle of a symmetric matrix.
-/

namespace InteriorPoint

/-- An entry of a sparse matrix as it is handed in. -/
structure Triplet (α : Type) where
  /-- The row. -/
  row : UInt64
  /-- The column. -/
  col : UInt64
  /-- The value. -/
  value : α

/-- The orders in which a sparse matrix stores its entries. -/
inductive StorageOrder where
  | byColumns
  | byRows
  deriving DecidableEq

/-- A sparse matrix: its shape and its stored entries, in storage order. -/
structure Sparse (α : Type) where
  /-- The number of rows. -/
  rows : Nat
  /-- The number of columns. -/
  cols : Nat
  /-- The stored entries, each with its row and its column. -/
  stored : List (Fin rows × Fin cols × α)

namespace Sparse

variable {α : Type}

/-! ## Storing -/

/-- The positions of a matrix in storage order. -/
def positions : StorageOrder → (m n : Nat) → List (Fin m × Fin n)
  | .byColumns, m, n => (List.finRange n).flatMap fun j => (List.finRange m).map (·, j)
  | .byRows, m, n => Dense.positions m n

variable [Scalar α]

/-- What is stored at a position: the sum of the values listed there, nothing if there are
none. -/
def gather? (entries : List (Triplet α)) (i j : Nat) : Option α :=
  match entries.filter fun e => e.row.toNat = i ∧ e.col.toNat = j with
  | [] => none
  | e :: es => some (es.foldl (fun sum e => sum + e.value) e.value)

/-- **The sparse matrix with the given entries**, of which those outside the shape are
dropped. -/
def ofEntries (order : StorageOrder) (m n : Nat) (entries : List (Triplet α)) : Sparse α where
  rows := m
  cols := n
  stored := (positions order m n).filterMap fun (i, j) =>
    (gather? entries i j).map fun v => (i, j, v)

/-- Why an entry is refused as part of an upper triangle of size `n`: a coordinate outside the
matrix, or a place below the diagonal. The size that would have been needed is a machine word as
well. -/
def refusal? (n : UInt64) (e : Triplet α) : Option (Error α) :=
  let last := max e.row e.col
  if n ≤ last then some (.dimensionMismatch n.toNat (last + 1).toNat)
  else if e.col < e.row then some (.invalidArgument (.belowDiagonal e.row.toNat e.col.toNat))
  else none

/-- **The upper triangle of size `n` with the given entries**, the first entry that does not fit
refused. -/
def upperTriangle (n : UInt64) (entries : List (Triplet α)) : Except (Error α) (Sparse α) :=
  match entries.findSome? (refusal? n) with
  | some e => .error e
  | none => .ok (ofEntries .byColumns n.toNat n.toNat entries)

/-! ## Expanding -/

/-- A value added to the entry at a position. -/
def addAt {m n : Nat} (M : Mat α m n) (i : Fin m) (j : Fin n) (v : α) : Mat α m n :=
  M.set i ((M.get i).set j (Mat.entry M i j + v) j.isLt) i.isLt

/-- A stored entry added at its position and at the transposed one. An entry below the diagonal is
refused, and the transposed position has to be inside the shape. -/
def place {m n : Nat} (M : Mat α m n) (e : Fin m × Fin n × α) : Except (Failure α) (Mat α m n) :=
  let (i, j, v) := e
  if j.val < i.val then .error (.error (.invalidArgument (.belowDiagonal i j)))
  else
    let M := addAt M i j v
    if i.val = j.val then .ok M
    else if h : j.val < m ∧ i.val < n then .ok (addAt M ⟨j, h.1⟩ ⟨i, h.2⟩ v)
    else .error .outOfRange

/-- **The symmetric matrix whose upper triangle is stored**, its entries taken in storage
order. -/
def expand (p : Sparse α) : Except (Failure α) (Mat α p.rows p.cols) :=
  p.stored.foldlM place Mat.zero

@[simp]
theorem entry_addAt {m n : Nat} (M : Mat α m n) (i : Fin m) (j : Fin n) (v : α) (r : Fin m)
    (c : Fin n) :
    Mat.entry (addAt M i j v) r c =
      if r = i ∧ c = j then Mat.entry M i j + v else Mat.entry M r c := by
  have h := Vec.get_set M i ((M.get i).set j (Mat.entry M i j + v) j.isLt) r
  unfold addAt
  rw [Mat.entry, h]
  by_cases hr : r = i
  · subst hr
    simp [Mat.entry]
  · simp [hr, Mat.entry]

end Sparse

end InteriorPoint

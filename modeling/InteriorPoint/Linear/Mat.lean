import InteriorPoint.Linear.Vec

/-!
# Matrices

A matrix of fixed shape is a vector of row vectors, and `M.entry i j` reads an entry. Matrices are
built from their entries (`Mat.of`), so that each operation comes with one lemma that says what
its entries are.
-/

namespace InteriorPoint

/-- A matrix with `m` rows and `n` columns, as a vector of row vectors. -/
abbrev Mat (α : Type) (m n : Nat) := Vector (Vector α n) m

namespace Mat

variable {α : Type} {m n : Nat}

/-- The entry in row `i` and column `j`. -/
def entry (M : Mat α m n) (i : Fin m) (j : Fin n) : α := (M.get i).get j

/-- The matrix with the given entries. -/
def of (f : Fin m → Fin n → α) : Mat α m n := Vector.ofFn fun i => Vector.ofFn (f i)

/-- Column `j` of a matrix. -/
def column (M : Mat α m n) (j : Fin n) : Vec α m := Vector.ofFn fun i => entry M i j

/-- The diagonal of a square matrix. -/
def diagonal (M : Mat α n n) : Vec α n := Vector.ofFn fun i => entry M i i

/-- The transpose of a matrix. -/
def transpose (M : Mat α m n) : Mat α n m := of fun j i => entry M i j

/-- The matrix with rows `i` and `k` exchanged. -/
def swapRows (M : Mat α m n) (i k : Fin m) : Mat α m n := M.swap i k i.isLt k.isLt

/-- The entries, column after column. -/
def byColumns (M : Mat α m n) : List α :=
  (List.finRange n).flatMap fun j => (List.finRange m).map fun i => entry M i j

/-- The matrix with `f` applied to every entry. -/
def mapEntries {β : Type} (f : α → β) (M : Mat α m n) : Mat β m n := of fun i j => f (entry M i j)

/-- Two matrices with the same entries are the same. -/
theorem ext_entry {M N : Mat α m n} (h : ∀ i j, entry M i j = entry N i j) : M = N :=
  Vec.ext_get fun i => Vec.ext_get fun j => h i j

@[simp]
theorem entry_of (f : Fin m → Fin n → α) (i : Fin m) (j : Fin n) : entry (of f) i j = f i j := by
  simp [entry, of]

@[simp]
theorem get_column (M : Mat α m n) (j : Fin n) (i : Fin m) : (column M j).get i = entry M i j :=
  Vec.get_ofFn _ i

@[simp]
theorem get_diagonal (M : Mat α n n) (i : Fin n) : (diagonal M).get i = entry M i i :=
  Vec.get_ofFn _ i

@[simp]
theorem entry_transpose (M : Mat α m n) (j : Fin n) (i : Fin m) :
    entry (transpose M) j i = entry M i j :=
  entry_of _ j i

@[simp]
theorem entry_mapEntries {β : Type} (f : α → β) (M : Mat α m n) (i : Fin m) (j : Fin n) :
    entry (mapEntries f M) i j = f (entry M i j) :=
  entry_of _ i j

/-- An exchange of rows: row `k` is the old row `i`, row `i` the old row `k`, and the others stay
in place. -/
theorem entry_swapRows (M : Mat α m n) (i k r : Fin m) (j : Fin n) :
    entry (swapRows M i k) r j =
      if r = i then entry M k j else if r = k then entry M i j else entry M r j := by
  have h : (swapRows M i k).get r = if r = i then M.get k else if r = k then M.get i else M.get r :=
    (Vector.getElem_swap i.isLt k.isLt r.isLt).trans (by
      simp only [Fin.ext_iff]
      rfl)
  unfold entry
  rw [h]
  split
  · rfl
  · split <;> rfl

variable [Scalar α]

/-- The matrix of zeros. -/
def zero : Mat α m n := of fun _ _ => 0

/-- The identity matrix. -/
def identity : Mat α n n := of fun i j => if i = j then 1 else 0

/-- **The product of a matrix and a vector.** An entry starts from the product in the first
column and adds the products of the later columns in front of what it has; without columns it is
zero. -/
def mulVec (M : Mat α m n) (x : Vec α n) : Vec α m :=
  Vector.ofFn fun i =>
    Fin.foldl n
      (fun acc j => if j.val = 0 then entry M i j * x.get j else entry M i j * x.get j + acc) 0

/-- The norm of `M·x - b`. -/
def residualNorm (M : Mat α m n) (x : Vec α n) (b : Vec α m) : α :=
  Vec.norm (Vec.sub (mulVec M x) b)

@[simp]
theorem entry_zero (i : Fin m) (j : Fin n) : entry (zero : Mat α m n) i j = 0 := entry_of _ i j

@[simp]
theorem entry_identity (i j : Fin n) : entry (identity : Mat α n n) i j = if i = j then 1 else 0 :=
  entry_of _ i j

theorem get_mulVec (M : Mat α m n) (x : Vec α n) (i : Fin m) :
    (mulVec M x).get i =
      Fin.foldl n
        (fun acc j => if j.val = 0 then entry M i j * x.get j else entry M i j * x.get j + acc) 0 :=
  Vec.get_ofFn _ i

end Mat

end InteriorPoint

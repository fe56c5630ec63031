import InteriorPoint.Linear.Mat

/-!
# Block systems

The matrix of the optimality conditions of a quadratic model under linear equations,

  `⎡ H  Aᵀ ⎤`
  `⎣ A  0  ⎦`

for `n` variables and `p` equations, and its regularization, which adds `ε` to the diagonal of the
first block and takes it off the diagonal of the last one. The block `Aᵀ` is handed in on its own,
and is used as it is.
-/

namespace InteriorPoint

namespace Block

variable {α : Type} [Scalar α] {n p : Nat}

/-- **The block matrix.** -/
def assemble (H : Mat α n n) (A : Mat α p n) (T : Mat α n p) : Mat α (n + p) (n + p) :=
  Mat.of fun i j =>
    Fin.addCases
      (fun i => Fin.addCases (fun j => Mat.entry H i j) (fun j => Mat.entry T i j) j)
      (fun i => Fin.addCases (fun j => Mat.entry A i j) (fun _ => 0) j) i

/-- The regularization of a block matrix with `n` variables: nothing unless `ε` is positive. -/
def regularize (ε : α) (K : Mat α (n + p) (n + p)) : Mat α (n + p) (n + p) :=
  if 0 < ε then
    Mat.of fun i j =>
      if i = j then if i.val < n then Mat.entry K i j + ε else Mat.entry K i j - ε
      else Mat.entry K i j
  else K

/-- The regularization of a Hessian: `ε` added to the diagonal. -/
def shiftDiagonal (ε : α) (H : Mat α n n) : Mat α n n :=
  Mat.of fun i j => if i = j then Mat.entry H i j + ε else Mat.entry H i j

/-- The right-hand side `(-g, -r)`. -/
def rightSide (g : Vec α n) (r : Vec α p) : Vec α (n + p) := Vec.neg (g ++ r)

/-- The first `n` entries of a vector. -/
def head (x : Vec α (n + p)) : Vec α n := Vector.ofFn fun i => x.get (i.castAdd p)

/-- The last `p` entries of a vector. -/
def tail (x : Vec α (n + p)) : Vec α p := Vector.ofFn fun i => x.get (i.natAdd n)

/-! ## Entries -/

variable (H : Mat α n n) (A : Mat α p n) (T : Mat α n p)

@[simp]
theorem assemble_castAdd_castAdd (i j : Fin n) :
    Mat.entry (assemble H A T) (i.castAdd p) (j.castAdd p) = Mat.entry H i j :=
  (Mat.entry_of _ (i.castAdd p) (j.castAdd p)).trans
    ((Fin.addCases_left i).trans (Fin.addCases_left j))

@[simp]
theorem assemble_castAdd_natAdd (i : Fin n) (j : Fin p) :
    Mat.entry (assemble H A T) (i.castAdd p) (j.natAdd n) = Mat.entry T i j :=
  (Mat.entry_of _ (i.castAdd p) (j.natAdd n)).trans
    ((Fin.addCases_left i).trans (Fin.addCases_right j))

@[simp]
theorem assemble_natAdd_castAdd (i : Fin p) (j : Fin n) :
    Mat.entry (assemble H A T) (i.natAdd n) (j.castAdd p) = Mat.entry A i j :=
  (Mat.entry_of _ (i.natAdd n) (j.castAdd p)).trans
    ((Fin.addCases_right i).trans (Fin.addCases_left j))

@[simp]
theorem assemble_natAdd_natAdd (i j : Fin p) :
    Mat.entry (assemble H A T) (i.natAdd n) (j.natAdd n) = 0 :=
  (Mat.entry_of _ (i.natAdd n) (j.natAdd n)).trans
    ((Fin.addCases_right i).trans (Fin.addCases_right j))

end Block

end InteriorPoint

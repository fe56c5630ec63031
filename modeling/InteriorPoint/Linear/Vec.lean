import InteriorPoint.Scalar

/-!
# Vectors

Vectors of a fixed length over a scalar type, and the sums that are taken over them. The order
of every sum is part of its definition: over floating-point numbers another order is another
result. An inner product runs in eight interleaved partial sums over the full blocks of eight
coordinates, and takes the remaining coordinates one by one (`sumProducts`).
-/

namespace InteriorPoint

/-- A vector of `n` scalars. -/
abbrev Vec (α : Type) (n : Nat) := Vector α n

namespace Vec

variable {α : Type} [Scalar α] {n : Nat}

/-! ## Entrywise operations -/

/-- The vector of zeros. -/
def zero : Vec α n := Vector.ofFn fun _ => 0

/-- The sum of two vectors. -/
def add (x y : Vec α n) : Vec α n := Vector.zipWith (· + ·) x y

/-- The difference of two vectors. -/
def sub (x y : Vec α n) : Vec α n := Vector.zipWith (· - ·) x y

/-- The opposite of a vector. -/
def neg (x : Vec α n) : Vec α n := x.map (- ·)

/-- The multiple of a vector, the scalar on the right. -/
def scale (x : Vec α n) (s : α) : Vec α n := x.map (· * s)

/-- The vector `s·v + x`. -/
def addScaled (s : α) (v x : Vec α n) : Vec α n := Vector.zipWith (fun v x => s * v + x) v x

omit [Scalar α] in
/-- Two vectors with the same entries are the same. -/
theorem ext_get {x y : Vec α n} (h : ∀ i, x.get i = y.get i) : x = y :=
  Vector.ext fun i hi => h ⟨i, hi⟩

omit [Scalar α] in
@[simp]
theorem get_ofFn (f : Fin n → α) (i : Fin n) : (Vector.ofFn f).get i = f i :=
  Vector.getElem_ofFn i.isLt

omit [Scalar α] in
@[simp]
theorem get_set (x : Vec α n) (k : Fin n) (v : α) (i : Fin n) :
    (x.set k v k.isLt).get i = if i = k then v else x.get i := by
  refine (Vector.getElem_set k.isLt i.isLt).trans ?_
  simp only [Fin.ext_iff, eq_comm]
  rfl

@[simp]
theorem get_zero (i : Fin n) : (zero : Vec α n).get i = 0 := get_ofFn _ i

@[simp]
theorem get_add (x y : Vec α n) (i : Fin n) : (add x y).get i = x.get i + y.get i :=
  Vector.getElem_zipWith i.isLt

@[simp]
theorem get_sub (x y : Vec α n) (i : Fin n) : (sub x y).get i = x.get i - y.get i :=
  Vector.getElem_zipWith i.isLt

@[simp]
theorem get_neg (x : Vec α n) (i : Fin n) : (neg x).get i = -x.get i :=
  Vector.getElem_map _ i.isLt

@[simp]
theorem get_scale (x : Vec α n) (s : α) (i : Fin n) : (scale x s).get i = x.get i * s :=
  Vector.getElem_map _ i.isLt

@[simp]
theorem get_addScaled (s : α) (v x : Vec α n) (i : Fin n) :
    (addScaled s v x).get i = s * v.get i + x.get i :=
  Vector.getElem_zipWith i.isLt

/-! ## Inner products -/

/-- The positions of one of eight interleaved sums lie inside the full blocks of eight. -/
theorem lane_lt (b : Fin (n / 8)) (k : Fin 8) : 8 * b.val + k.val < n := by omega

/-- The positions after the last full block of eight. -/
theorem rest_lt (r : Fin (n % 8)) : 8 * (n / 8) + r.val < n := by omega

/-- The positions from some position on. -/
theorem from_lt {s : Nat} (k : Fin (n - s)) : s + k.val < n := by omega

/-- One of the eight interleaved partial sums of an inner product: the products at the positions
`k`, `8 + k`, `16 + k`, … of the full blocks of eight. -/
def lane (x y : Fin n → α) (k : Fin 8) : α :=
  Fin.foldl (n / 8)
    (fun acc b => acc + x ⟨8 * b + k, lane_lt b k⟩ * y ⟨8 * b + k, lane_lt b k⟩) 0

/-- **The sum of the products** `x i * y i`: the eight partial sums, folded in pairs four apart,
then the coordinates after the last full block, from left to right. -/
def sumProducts (x y : Fin n → α) : α :=
  let blocks :=
    0 + (lane x y 0 + lane x y 4) + (lane x y 1 + lane x y 5) + (lane x y 2 + lane x y 6)
      + (lane x y 3 + lane x y 7)
  Fin.foldl (n % 8)
    (fun acc r => acc + x ⟨8 * (n / 8) + r, rest_lt r⟩ * y ⟨8 * (n / 8) + r, rest_lt r⟩) blocks

/-- The inner product of two vectors. -/
def dot (x y : Vec α n) : α := sumProducts x.get y.get

/-- The inner product of what two vectors hold from position `s` on. -/
def dotFrom (s : Nat) (x y : Vec α n) : α :=
  sumProducts (fun k : Fin (n - s) => x.get ⟨s + k, from_lt k⟩)
    (fun k => y.get ⟨s + k, from_lt k⟩)

/-- The Euclidean norm. -/
def norm (x : Vec α n) : α := Scalar.sqrt (dot x x)

/-! ## Extreme absolute values -/

/-- **The largest absolute value of a list**, zero for the empty one. A later entry replaces the
candidate unless the candidate is at least as large, so an undefined entry is kept only in the
last place. -/
def largestAbs : List α → α
  | [] => 0
  | e :: es =>
    es.foldl (fun m e => if Scalar.abs e ≤ m then m else Scalar.abs e) (Scalar.abs e)

/-- **The smallest absolute value of a list**, zero for the empty one. A later entry replaces the
candidate unless the candidate is at most as large. -/
def smallestAbs : List α → α
  | [] => 0
  | e :: es =>
    es.foldl (fun m e => if m ≤ Scalar.abs e then m else Scalar.abs e) (Scalar.abs e)

end Vec

end InteriorPoint

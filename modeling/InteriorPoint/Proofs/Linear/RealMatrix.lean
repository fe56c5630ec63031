import InteriorPoint.Linear.Mat
import InteriorPoint.Proofs.Scalar.Real
import Mathlib.Algebra.BigOperators.Fin
import Mathlib.Algebra.Order.BigOperators.Ring.Finset
import Mathlib.Algebra.Order.Star.Real
import Mathlib.LinearAlgebra.Matrix.DotProduct
import Mathlib.LinearAlgebra.Matrix.Notation

/-!
# Vectors and matrices over the real numbers

Over the real numbers the order of a sum does not matter, so the operations on vectors and
matrices are those of linear algebra: an inner product, whatever partial sums it runs in, is
`x.get ⬝ᵥ y.get`, and the product of a matrix and a vector is `M.toMatrix *ᵥ x.get`. The view of a
stored vector is the function of its entries, that of a stored matrix is `Mat.toMatrix`.
-/

open Matrix

namespace InteriorPoint

variable {m n : ℕ}

/-! ## Running sums -/

/-- A running sum that adds at the end. -/
theorem foldl_add_right (f : Fin n → ℝ) (a : ℝ) :
    Fin.foldl n (fun acc j => acc + f j) a = a + ∑ j, f j := by
  induction n with
  | zero => rw [Fin.foldl_zero, Fin.sum_univ_zero, add_zero]
  | succ n ih => rw [Fin.foldl_succ_last, ih, Fin.sum_univ_castSucc, add_assoc]

/-- A running sum that adds in front. -/
theorem foldl_add_left (f : Fin n → ℝ) (a : ℝ) :
    Fin.foldl n (fun acc j => f j + acc) a = (∑ j, f j) + a := by
  rw [add_comm _ a, ← foldl_add_right]
  refine congrArg (Fin.foldl n · a) ?_
  funext acc j
  exact add_comm _ _

/-- A sum over full blocks of eight, block by block. -/
theorem sum_range_eight_mul (F : ℕ → ℝ) (q : ℕ) :
    ∑ i ∈ Finset.range (8 * q), F i
      = ∑ b ∈ Finset.range q, ∑ k ∈ Finset.range 8, F (8 * b + k) := by
  induction q with
  | zero => rfl
  | succ q ih =>
    rw [Nat.mul_succ, Finset.sum_range_add, ih]
    exact (Finset.sum_range_succ _ q).symm

namespace Vec

/-! ## Inner products -/

/-- The product at a position, zero outside the length. -/
noncomputable def productAt (x y : Fin n → ℝ) (i : ℕ) : ℝ :=
  if h : i < n then x ⟨i, h⟩ * y ⟨i, h⟩ else 0

theorem productAt_of_lt {x y : Fin n → ℝ} {i : ℕ} (h : i < n) :
    productAt x y i = x ⟨i, h⟩ * y ⟨i, h⟩ :=
  dif_pos h

/-- A partial sum collects every eighth product. -/
theorem lane_eq (x y : Fin n → ℝ) (k : Fin 8) :
    lane x y k = ∑ b ∈ Finset.range (n / 8), productAt x y (8 * b + k) := by
  unfold lane
  rw [foldl_add_right, Finset.sum_range]
  refine (zero_add _).trans (Finset.sum_congr rfl fun b _ => ?_)
  exact (productAt_of_lt (lane_lt b k)).symm

/-- **The eight partial sums and the rest make up the whole sum.** -/
theorem sumProducts_eq (x y : Fin n → ℝ) : sumProducts x y = x ⬝ᵥ y := by
  have hrest : ∀ r : Fin (n % 8),
      x ⟨8 * (n / 8) + r, rest_lt r⟩ * y ⟨8 * (n / 8) + r, rest_lt r⟩
        = productAt x y (8 * (n / 8) + r) := fun r => (productAt_of_lt (rest_lt r)).symm
  have hall : x ⬝ᵥ y = ∑ i ∈ Finset.range (8 * (n / 8) + n % 8), productAt x y i := by
    rw [Nat.div_add_mod, Finset.sum_range]
    exact Finset.sum_congr rfl fun i _ => (productAt_of_lt i.isLt).symm
  unfold sumProducts
  rw [foldl_add_right, hall, Finset.sum_range_add, sum_range_eight_mul,
    Finset.sum_range (n := n % 8)]
  -- in the full blocks, the sum over the blocks and the sum over the lanes change places
  refine congrArg₂ (· + ·) ?_ (Finset.sum_congr rfl fun r _ => hrest r)
  rw [Finset.sum_comm]
  simp only [lane_eq, Finset.sum_range_succ, Finset.sum_range_zero]
  simp
  ring

/-- The inner product of two vectors. -/
theorem dot_eq (x y : Vec ℝ n) : dot x y = x.get ⬝ᵥ y.get := sumProducts_eq _ _

/-- The inner product of what two vectors hold from a position on. -/
theorem dotFrom_eq (s : ℕ) (x y : Vec ℝ n) :
    dotFrom s x y = ∑ j : Fin n, if s ≤ j.val then x.get j * y.get j else 0 := by
  have hfrom : dotFrom s x y = ∑ k ∈ Finset.range (n - s), productAt x.get y.get (s + k) := by
    unfold dotFrom
    rw [sumProducts_eq, Finset.sum_range]
    exact Finset.sum_congr rfl fun k _ => (productAt_of_lt (from_lt k)).symm
  have hall : (∑ j : Fin n, if s ≤ j.val then x.get j * y.get j else 0)
      = ∑ i ∈ Finset.range n, if s ≤ i then productAt x.get y.get i else 0 := by
    rw [Finset.sum_range]
    exact Finset.sum_congr rfl fun j _ => by rw [productAt_of_lt j.isLt]
  rw [hfrom, hall]
  rcases Nat.le_total s n with hs | hs
  · obtain ⟨d, rfl⟩ := Nat.exists_eq_add_of_le hs
    have hbefore : (∑ i ∈ Finset.range s, if s ≤ i then productAt x.get y.get i else 0) = 0 :=
      Finset.sum_eq_zero fun i hi => if_neg (Nat.not_le.mpr (Finset.mem_range.mp hi))
    rw [Finset.sum_range_add, hbefore, Nat.add_sub_cancel_left, zero_add]
    exact Finset.sum_congr rfl fun k _ => (if_pos (Nat.le_add_right s k)).symm
  · rw [Nat.sub_eq_zero_of_le hs, Finset.sum_range_zero, Finset.sum_eq_zero]
    exact fun i hi => if_neg (Nat.not_le.mpr ((Finset.mem_range.mp hi).trans_le hs))

/-- The norm of a vector. -/
theorem norm_eq (x : Vec ℝ n) : norm x = √(x.get ⬝ᵥ x.get) := by
  unfold norm
  rw [dot_eq, Scalar.sqrt_eq]

/-- A vector has the norm zero only if it is zero. -/
theorem norm_eq_zero_iff (x : Vec ℝ n) : norm x = 0 ↔ x.get = 0 := by
  have hnonneg : 0 ≤ x.get ⬝ᵥ x.get := dotProduct_star_self_nonneg x.get
  rw [norm_eq, Real.sqrt_eq_zero hnonneg]
  exact dotProduct_self_eq_zero

/-! ## Entries as functions -/

theorem get_add_eq (x y : Vec ℝ n) : (add x y).get = x.get + y.get := funext (get_add x y)

theorem get_sub_eq (x y : Vec ℝ n) : (sub x y).get = x.get - y.get := funext (get_sub x y)

theorem get_neg_eq (x : Vec ℝ n) : (neg x).get = -x.get := funext (get_neg x)

/-! ## Extreme absolute values -/

/-- A scan for the largest absolute value never goes below where it starts. -/
theorem le_scan_largest (es : List ℝ) (m : ℝ) :
    m ≤ es.foldl (fun m e => if Scalar.abs e ≤ m then m else Scalar.abs e) m := by
  induction es generalizing m with
  | nil => exact le_rfl
  | cons e es ih =>
    rw [List.foldl_cons]
    refine le_trans ?_ (ih _)
    split_ifs with h
    · exact le_rfl
    · exact (not_le.mp h).le

/-- A scan for the largest absolute value stays below what bounds its start and all that it
meets. -/
theorem scan_largest_le {es : List ℝ} {m b : ℝ} (hm : m ≤ b) (hes : ∀ e ∈ es, |e| ≤ b) :
    es.foldl (fun m e => if Scalar.abs e ≤ m then m else Scalar.abs e) m ≤ b := by
  induction es generalizing m with
  | nil => exact hm
  | cons e es ih =>
    obtain ⟨he, hes⟩ := List.forall_mem_cons.mp hes
    rw [List.foldl_cons]
    refine ih ?_ hes
    split_ifs
    · exact hm
    · exact he

/-- The largest absolute value is not negative. -/
theorem largestAbs_nonneg (l : List ℝ) : 0 ≤ largestAbs l := by
  cases l with
  | nil => exact le_rfl
  | cons e es => exact (abs_nonneg e).trans (le_scan_largest es |e|)

/-- What bounds all absolute values bounds the largest one. -/
theorem largestAbs_le {l : List ℝ} {b : ℝ} (hb : 0 ≤ b) (hl : ∀ e ∈ l, |e| ≤ b) :
    largestAbs l ≤ b := by
  cases l with
  | nil => exact hb
  | cons e es =>
    obtain ⟨he, hes⟩ := List.forall_mem_cons.mp hl
    exact scan_largest_le he hes

end Vec

namespace Mat

/-! ## Matrices -/

/-- A stored matrix as the function of its entries. -/
def toMatrix {α : Type} (M : Mat α m n) : Matrix (Fin m) (Fin n) α := Matrix.of (entry M)

@[simp] theorem toMatrix_apply {α : Type} (M : Mat α m n) (i : Fin m) (j : Fin n) :
    M.toMatrix i j = entry M i j := rfl

@[simp] theorem toMatrix_of {α : Type} (f : Fin m → Fin n → α) :
    (of f).toMatrix = Matrix.of f := by
  ext i j
  exact entry_of f i j

@[simp] theorem toMatrix_transpose {α : Type} (M : Mat α m n) :
    (transpose M).toMatrix = M.toMatrixᵀ :=
  toMatrix_of fun j i => entry M i j

/-- **The product of a matrix and a vector** is the one of linear algebra. -/
theorem get_mulVec_eq (M : Mat ℝ m n) (x : Vec ℝ n) : (mulVec M x).get = M.toMatrix *ᵥ x.get := by
  funext i
  rw [get_mulVec]
  cases n with
  | zero => rfl
  | succ n =>
    -- the first column starts the sum, and every later one adds to it
    have hlater : (fun (acc : ℝ) (j : Fin n) => if j.succ.val = 0
        then entry M i j.succ * x.get j.succ else entry M i j.succ * x.get j.succ + acc)
        = fun acc j => entry M i j.succ * x.get j.succ + acc := by
      funext acc j
      exact if_neg (Nat.succ_ne_zero j)
    rw [Fin.foldl_succ, hlater, foldl_add_left, Matrix.mulVec, dotProduct, Fin.sum_univ_succ,
      add_comm]
    rfl

/-! ## Lengths of images -/

/-- **A matrix with much curvature makes large vectors.** -/
theorem le_mulVec_dotProduct_self {M : Matrix (Fin n) (Fin n) ℝ} {μ : ℝ} (hμ : 0 ≤ μ)
    {z : Fin n → ℝ} (hz : μ * (z ⬝ᵥ z) ≤ z ⬝ᵥ M *ᵥ z) :
    μ ^ 2 * (z ⬝ᵥ z) ≤ M *ᵥ z ⬝ᵥ M *ᵥ z := by
  have hsquare : ∀ y : Fin n → ℝ, y ⬝ᵥ y = ∑ j, y j ^ 2 := fun y =>
    Finset.sum_congr rfl fun j _ => (sq (y j)).symm
  have hnonneg : ∀ y : Fin n → ℝ, 0 ≤ y ⬝ᵥ y := fun y => dotProduct_star_self_nonneg y
  have hcauchy : (z ⬝ᵥ M *ᵥ z) ^ 2 ≤ (z ⬝ᵥ z) * (M *ᵥ z ⬝ᵥ M *ᵥ z) := by
    rw [hsquare z, hsquare (M *ᵥ z)]
    exact Finset.sum_mul_sq_le_sq_mul_sq _ _ _
  by_cases hzero : z ⬝ᵥ z = 0
  · rw [hzero, mul_zero]
    exact hnonneg _
  · have hpos : 0 < z ⬝ᵥ z := lt_of_le_of_ne (hnonneg z) (Ne.symm hzero)
    refine le_of_mul_le_mul_left ?_ hpos
    calc z ⬝ᵥ z * (μ ^ 2 * (z ⬝ᵥ z)) = (μ * (z ⬝ᵥ z)) ^ 2 := by ring
      _ ≤ (z ⬝ᵥ M *ᵥ z) ^ 2 := pow_le_pow_left₀ (mul_nonneg hμ hpos.le) hz 2
      _ ≤ _ := hcauchy

/-- **What a matrix does to every length**, its powers do as often. -/
theorem pow_mulVec_dotProduct_self_le {E : Matrix (Fin n) (Fin n) ℝ} {c : ℝ} (hc : 0 ≤ c)
    (hE : ∀ r, E *ᵥ r ⬝ᵥ E *ᵥ r ≤ c * (r ⬝ᵥ r)) (k : ℕ) (r : Fin n → ℝ) :
    E ^ k *ᵥ r ⬝ᵥ E ^ k *ᵥ r ≤ c ^ k * (r ⬝ᵥ r) := by
  induction k with
  | zero => rw [pow_zero, pow_zero, one_mulVec, one_mul]
  | succ k ih =>
    rw [pow_succ', pow_succ', ← mulVec_mulVec, mul_assoc]
    exact (hE _).trans (mul_le_mul_of_nonneg_left ih hc)

/-- A matrix that makes no vector longer, has powers that do not. -/
theorem pow_mulVec_dotProduct_self_le_self {E : Matrix (Fin n) (Fin n) ℝ}
    (hE : ∀ r, E *ᵥ r ⬝ᵥ E *ᵥ r ≤ r ⬝ᵥ r) (k : ℕ) (r : Fin n → ℝ) :
    E ^ k *ᵥ r ⬝ᵥ E ^ k *ᵥ r ≤ r ⬝ᵥ r := by
  have hpower := pow_mulVec_dotProduct_self_le zero_le_one
    (fun r => (hE r).trans_eq (one_mul _).symm) k r
  rwa [one_pow, one_mul] at hpower

/-- The norm of a residual. -/
theorem residualNorm_neg (M : Mat ℝ m n) (x : Vec ℝ n) (b : Vec ℝ m) :
    residualNorm M x (Vec.neg b)
      = √((M.toMatrix *ᵥ x.get + b.get) ⬝ᵥ (M.toMatrix *ᵥ x.get + b.get)) := by
  unfold residualNorm
  rw [Vec.norm_eq, Vec.get_sub_eq, get_mulVec_eq, Vec.get_neg_eq, sub_neg_eq_add]

end Mat

end InteriorPoint

import InteriorPoint.Linear.Cholesky
import InteriorPoint.Proofs.Linear.Leading
import Mathlib.Algebra.Order.Star.Real
import Mathlib.LinearAlgebra.Matrix.PosDef

/-!
# What the square-root factorization keeps

The factorization reads the lower triangle of a matrix, so it factors the symmetric matrix with
that triangle (`Mat.mirrored`). With `L` the stored matrix after `k` columns, `Λ` its lower triangle
and `S` what is left to factor (`Cholesky.remaining`), the identity before row and column `k` and a
Schur complement from there on,

  `A.mirrored = leading k Λ * S * (leading k Λ)ᵀ`

and the first `k` entries of the diagonal of `L` are positive. So `A.mirrored` is positive definite
exactly if `S` is, the next pivot is a diagonal entry of `S`, and nothing is left after all columns:
the factorization succeeds exactly on the positive definite matrices
(`Cholesky.isSome_factor?_iff`), and its substitutions solve the system
(`Cholesky.mirrored_mulVec_solve`).
-/

open Matrix

namespace InteriorPoint

variable {n : ℕ}

namespace Mat

/-- **The symmetric matrix with the lower triangle of a stored one.** -/
def mirrored {α : Type} (M : Mat α n n) : Matrix (Fin n) (Fin n) α :=
  Matrix.of fun r c => if c ≤ r then entry M r c else entry M c r

theorem mirrored_of_le {α : Type} (M : Mat α n n) {r c : Fin n} (h : c ≤ r) :
    mirrored M r c = entry M r c :=
  if_pos h

theorem mirrored_comm {α : Type} (M : Mat α n n) (r c : Fin n) :
    mirrored M r c = mirrored M c r := by
  unfold mirrored
  rw [Matrix.of_apply, Matrix.of_apply]
  rcases lt_trichotomy r c with h | rfl | h
  · rw [if_neg (not_le.mpr h), if_pos h.le]
  · rfl
  · rw [if_pos h.le, if_neg (not_le.mpr h)]

/-- A symmetric matrix is the one with its lower triangle. -/
theorem mirrored_of_isSymm {α : Type} {M : Mat α n n} (hM : M.toMatrix.IsSymm) :
    mirrored M = M.toMatrix := by
  ext r c
  rcases le_total c r with h | h
  · exact mirrored_of_le M h
  · rw [mirrored_comm, mirrored_of_le M h]
    exact hM.apply r c

end Mat

namespace Cholesky

/-! ## Sums over the columns before one -/

theorem before_injective (j : Fin n) : Function.Injective (before j) :=
  fun _ _ h => Fin.castLE_injective _ h

/-- A sum over the columns before column `j`. -/
theorem sum_before (j : Fin n) (f : Fin n → ℝ) :
    ∑ k, f (before j k) = ∑ k : Fin n, if k.val < j.val then f k else 0 := by
  refine Finset.sum_of_injOn (before j) (before_injective j).injOn (fun _ _ => Finset.mem_univ _)
    (fun k _ hk => if_neg fun hlt => hk ?_) fun k _ => ?_
  · exact ⟨⟨k, hlt⟩, Finset.mem_coe.mpr (Finset.mem_univ _), rfl⟩
  · exact (if_pos (show (before j k).val < j.val from k.isLt)).symm

/-- One more column. -/
theorem sum_lt_succ (k : Fin n) (f : Fin n → ℝ) :
    ∑ j : Fin n, (if j.val < k + 1 then f j else 0)
      = (∑ j : Fin n, if j.val < k.val then f j else 0) + f k := by
  have hsplit : ∀ j : Fin n, (if j.val < k + 1 then f j else 0)
      = (if j.val < k.val then f j else 0) + if j = k then f j else 0 := by
    intro j
    rcases lt_trichotomy j k with hj | rfl | hj
    · rw [if_pos (Nat.lt_succ_of_lt hj), if_pos (Fin.lt_def.mp hj), if_neg hj.ne, add_zero]
    · rw [if_pos (Nat.lt_succ_self _), if_neg (lt_irrefl _), if_pos rfl, zero_add]
    · rw [if_neg (Nat.not_lt.mpr hj), if_neg (Nat.lt_asymm hj), if_neg hj.ne', zero_add]
  rw [Finset.sum_congr rfl fun j _ => hsplit j, Finset.sum_add_distrib,
    Finset.sum_ite_eq' Finset.univ k f, if_pos (Finset.mem_univ k)]

/-! ## The state after some columns -/

/-- **The factor in a stored matrix**: its lower triangle. -/
def lowerFactor (L : Mat ℝ n n) : Matrix (Fin n) (Fin n) ℝ :=
  Matrix.of fun r c => if c ≤ r then Mat.entry L r c else 0

/-- **What is left to factor** after `k` columns. -/
def remaining (k : ℕ) (L : Mat ℝ n n) : Matrix (Fin n) (Fin n) ℝ :=
  Matrix.of fun r c =>
    if k ≤ r.val ∧ k ≤ c.val then
      L.mirrored r c - ∑ j : Fin n, if j.val < k then Mat.entry L r j * Mat.entry L c j else 0
    else (1 : Matrix (Fin n) (Fin n) ℝ) r c

theorem lowerFactor_of_le (L : Mat ℝ n n) {r c : Fin n} (h : c ≤ r) :
    lowerFactor L r c = Mat.entry L r c :=
  if_pos h

theorem lowerFactor_of_lt (L : Mat ℝ n n) {r c : Fin n} (h : r < c) : lowerFactor L r c = 0 :=
  if_neg (not_le.mpr h)

theorem remaining_apply (k : ℕ) (L : Mat ℝ n n) (r c : Fin n) :
    remaining k L r c = if k ≤ r.val ∧ k ≤ c.val then
      L.mirrored r c - ∑ j : Fin n, (if j.val < k then Mat.entry L r j * Mat.entry L c j else 0)
    else (1 : Matrix (Fin n) (Fin n) ℝ) r c := rfl

@[simp] theorem remaining_zero (L : Mat ℝ n n) : remaining 0 L = L.mirrored := by
  ext r c
  rw [remaining_apply, if_pos ⟨Nat.zero_le _, Nat.zero_le _⟩]
  refine (congrArg (L.mirrored r c - ·) (Finset.sum_eq_zero fun j _ => ?_)).trans (sub_zero _)
  exact if_neg (Nat.not_lt_zero _)

@[simp] theorem remaining_self (L : Mat ℝ n n) : remaining n L = 1 := by
  ext r c
  rw [remaining_apply, if_neg fun h => absurd h.1 (Nat.not_le.mpr r.isLt)]

theorem remaining_comm (k : ℕ) (L : Mat ℝ n n) (r c : Fin n) :
    remaining k L r c = remaining k L c r := by
  rw [remaining_apply, remaining_apply, L.mirrored_comm, Matrix.one_apply, Matrix.one_apply,
    if_congr and_comm rfl rfl, if_congr eq_comm rfl rfl]
  simp only [mul_comm]

/-- The entry that a column starts from is one of what is left. -/
theorem reduced_eq (L : Mat ℝ n n) {k r : Fin n} (hr : k ≤ r) :
    reduced L k r = remaining k L r k := by
  unfold reduced
  rw [foldl_add_left, remaining_apply, if_pos ⟨hr, le_rfl⟩, L.mirrored_of_le hr,
    sum_before k fun j => -Mat.entry L k j * Mat.entry L r j, sub_eq_neg_add,
    ← Finset.sum_neg_distrib]
  refine congrArg (· + Mat.entry L r k) (Finset.sum_congr rfl fun j _ => ?_)
  split_ifs
  · ring
  · exact neg_zero.symm

/-! ## One column -/

/-- The stored matrix with column `k` factored. -/
def factorColumn {α : Type} [Scalar α] (L : Mat α n n) (k : Fin n) : Mat α n n :=
  Mat.of fun r c =>
    if c = k then
      if r < k then Mat.entry L r k
      else if r = k then Scalar.sqrt (reduced L k k)
      else reduced L k r / Scalar.sqrt (reduced L k k)
    else Mat.entry L r c

/-- **What one column does**: its pivot is the next diagonal entry of what is left, and has to be
positive. -/
theorem column?_eq (L : Mat ℝ n n) (k : Fin n) :
    column? L k = if 0 < remaining k L k k then some (factorColumn L k) else none := by
  have hrefuse : (reduced L k k == 0) = true ∨ ¬ 0 ≤ reduced L k k ↔
      ¬ 0 < remaining k L k k := by
    rw [Scalar.beq_iff, reduced_eq L le_rfl, not_le, not_lt, le_iff_lt_or_eq, or_comm]
  unfold column?
  dsimp only
  rw [if_congr hrefuse rfl rfl, ite_not]
  rfl

/-- A column that is not column `k` stays as it is. -/
theorem entry_factorColumn_of_ne {α : Type} [Scalar α] (L : Mat α n n) {k c : Fin n} (hc : c ≠ k)
    (r : Fin n) : Mat.entry (factorColumn L k) r c = Mat.entry L r c :=
  (Mat.entry_of _ r c).trans (if_neg hc)

theorem entry_factorColumn_self (L : Mat ℝ n n) (k : Fin n) :
    Mat.entry (factorColumn L k) k k = √(remaining k L k k) := by
  unfold factorColumn
  rw [Mat.entry_of, if_pos rfl, if_neg (lt_irrefl k), if_pos rfl, Scalar.sqrt_eq,
    reduced_eq L le_rfl]

/-- Factoring column `k` leaves the factor in the columns before it alone. -/
theorem leading_lowerFactor_factorColumn (L : Mat ℝ n n) (k : Fin n) :
    leading k (lowerFactor (factorColumn L k)) = leading k (lowerFactor L) := by
  ext r j
  rw [leading_apply, leading_apply]
  split_ifs with hj
  · rw [lowerFactor, lowerFactor, Matrix.of_apply, Matrix.of_apply,
      entry_factorColumn_of_ne L (Fin.ne_of_lt hj)]
  · rfl

/-- The factored column, where it counts: the entries of what is left over the root of the
pivot. -/
theorem lowerFactor_mul_sqrt {L : Mat ℝ n n} {k r : Fin n} (hk : 0 < remaining k L k k)
    (hr : k ≤ r) :
    lowerFactor (factorColumn L k) r k * √(remaining k L k k) = remaining k L r k := by
  have hroot : √(remaining k L k k) ≠ 0 := (Real.sqrt_pos.mpr hk).ne'
  rw [lowerFactor_of_le _ hr]
  rcases eq_or_lt_of_le hr with rfl | hlt
  · rw [entry_factorColumn_self, Real.mul_self_sqrt hk.le]
  · rw [factorColumn, Mat.entry_of, if_pos rfl, if_neg (not_lt.mpr hr), if_neg hlt.ne',
      Scalar.sqrt_eq, reduced_eq L le_rfl, reduced_eq L hr]
    exact div_mul_cancel₀ _ hroot

/-- What is left beyond row and column `k` loses the products of the factored column. -/
theorem remaining_succ_of_lt (L : Mat ℝ n n) {k r c : Fin n} (hr : k < r) (hc : k < c) :
    remaining (k + 1) (factorColumn L k) r c
      = remaining k L r c
        - Mat.entry (factorColumn L k) r k * Mat.entry (factorColumn L k) c k := by
  have hmirrored : (factorColumn L k).mirrored r c = L.mirrored r c := by
    rcases le_total c r with h | h
    · rw [Mat.mirrored_of_le _ h, Mat.mirrored_of_le _ h, entry_factorColumn_of_ne L hc.ne']
    · rw [Mat.mirrored_comm, Mat.mirrored_comm L, Mat.mirrored_of_le _ h, Mat.mirrored_of_le _ h,
        entry_factorColumn_of_ne L hr.ne']
  have hbefore : ∀ j : Fin n,
      (if j.val < k.val then
        Mat.entry (factorColumn L k) r j * Mat.entry (factorColumn L k) c j else 0)
      = if j.val < k.val then Mat.entry L r j * Mat.entry L c j else 0 := by
    intro j
    split_ifs with hj
    · have hne := Fin.ne_of_lt hj
      rw [entry_factorColumn_of_ne L hne, entry_factorColumn_of_ne L hne]
    · rfl
  rw [remaining_apply, remaining_apply, if_pos ⟨hr, hc⟩,
    if_pos ⟨(Fin.le_def.mp hr.le), (Fin.le_def.mp hc.le)⟩, hmirrored,
    sum_lt_succ k fun j => Mat.entry (factorColumn L k) r j * Mat.entry (factorColumn L k) c j,
    Finset.sum_congr rfl fun j _ => hbefore j]
  ring

/-- **One column.** What is left loses the products of the factored column, and its row and column
`k` become those of the identity. -/
theorem remaining_succ {L : Mat ℝ n n} {k : Fin n} (hk : 0 < remaining k L k k) (r c : Fin n) :
    remaining (k + 1) (factorColumn L k) r c
        + lowerFactor (factorColumn L k) r k * lowerFactor (factorColumn L k) c k
      = remaining k L r c + (if r = k then 1 else 0) * if c = k then 1 else 0 := by
  have hfirst : ∀ c, remaining (k + 1) (factorColumn L k) k c
        + lowerFactor (factorColumn L k) k k * lowerFactor (factorColumn L k) c k
      = remaining k L k c + if c = k then 1 else 0 := by
    intro c
    rw [remaining_apply, if_neg (fun h => absurd h.1 (Nat.not_succ_le_self _)), Matrix.one_apply,
      if_congr eq_comm rfl rfl, lowerFactor_of_le _ le_rfl, entry_factorColumn_self, add_comm,
      mul_comm, add_left_inj]
    rcases lt_or_ge c k with hc | hc
    · rw [lowerFactor_of_lt _ hc, zero_mul, remaining_apply,
        if_neg (fun h => absurd h.2 (Nat.not_le.mpr hc)), Matrix.one_apply_ne hc.ne']
    · rw [lowerFactor_mul_sqrt hk hc, remaining_comm]
  -- before row `k` both sides are the identity, in row `k` the left one becomes it
  rcases lt_trichotomy r k with hr | rfl | hr
  · rw [lowerFactor_of_lt _ hr, if_neg hr.ne, zero_mul, zero_mul, add_zero, add_zero,
      remaining_apply, remaining_apply, if_neg (fun h => by omega), if_neg (fun h => by omega)]
  · rw [if_pos rfl, one_mul]
    exact hfirst c
  · rcases lt_trichotomy c k with hc | rfl | hc
    · rw [lowerFactor_of_lt _ hc, if_neg hc.ne, mul_zero, mul_zero, add_zero, add_zero,
        remaining_apply, remaining_apply, if_neg (fun h => by omega), if_neg (fun h => by omega)]
    · -- column `k` is row `k` of a symmetric matrix
      rw [remaining_comm _ _ r c, remaining_comm _ _ r c, mul_comm, if_pos rfl, mul_one]
      exact hfirst r
    · rw [remaining_succ_of_lt L hr hc, lowerFactor_of_le _ hr.le, lowerFactor_of_le _ hc.le,
        if_neg hr.ne', zero_mul, add_zero, sub_add_cancel]

/-- The matrix that the factor gains with one more column. -/
def columnFactor (L : Mat ℝ n n) (k : Fin n) : Matrix (Fin n) (Fin n) ℝ :=
  1 + vecMulVec (excess (lowerFactor L) k) (Pi.single k 1)

theorem leading_lowerFactor_succ (L : Mat ℝ n n) (k : Fin n) :
    leading (k + 1) (lowerFactor L) = leading k (lowerFactor L) * columnFactor L k := by
  unfold columnFactor
  rw [Matrix.mul_add, Matrix.mul_one, Matrix.mul_vecMulVec,
    leading_mulVec_excess (fun r hr => lowerFactor_of_lt L hr), leading_succ]

/-- **One column is a congruence** between what is left before and after it. -/
theorem columnFactor_mul_remaining {L : Mat ℝ n n} {k : Fin n} (hk : 0 < remaining k L k k) :
    columnFactor (factorColumn L k) k * remaining (k + 1) (factorColumn L k)
        * (columnFactor (factorColumn L k) k)ᵀ
      = remaining k L := by
  set S := remaining (k + 1) (factorColumn L k) with hS
  set x := excess (lowerFactor (factorColumn L k)) k with hx
  have hrow : ∀ c, S k c = if c = k then 1 else 0 := by
    intro c
    rw [hS, remaining_apply, if_neg (fun h => absurd h.1 (Nat.not_succ_le_self _)),
      Matrix.one_apply, if_congr eq_comm rfl rfl]
  have hright : (Pi.single k 1 : Fin n → ℝ) ᵥ* S = Pi.single k 1 := by
    funext c
    rw [Matrix.single_one_vecMul, Pi.single_apply]
    exact hrow c
  have hleft : S *ᵥ (Pi.single k 1 : Fin n → ℝ) = Pi.single k 1 := by
    funext r
    rw [Matrix.mulVec_single_one, Pi.single_apply]
    exact (remaining_comm _ _ r k).trans (hrow r)
  -- the identity in row and column `k` makes both sides of the product collapse
  have hexpand : columnFactor (factorColumn L k) k * S * (columnFactor (factorColumn L k) k)ᵀ
      = S + vecMulVec x (Pi.single k 1) + (vecMulVec (Pi.single k 1) x + vecMulVec x x) := by
    unfold columnFactor
    rw [← hx, Matrix.transpose_add, Matrix.transpose_one, transpose_vecMulVec,
      Matrix.add_mul, Matrix.one_mul, Matrix.vecMulVec_mul, hright, Matrix.mul_add, Matrix.mul_one,
      Matrix.add_mul, Matrix.mul_vecMulVec, hleft, vecMulVec_mul_vecMulVec, single_one_dotProduct,
      Pi.single_eq_same, one_smul]
  ext r c
  have hstep := remaining_succ hk r c
  have hr : x r = lowerFactor (factorColumn L k) r k - if r = k then 1 else 0 := excess_apply _ _ _
  have hc : x c = lowerFactor (factorColumn L k) c k - if c = k then 1 else 0 := excess_apply _ _ _
  rw [hexpand, Matrix.add_apply, Matrix.add_apply, Matrix.add_apply, vecMulVec_apply,
    vecMulVec_apply, vecMulVec_apply, Pi.single_apply, Pi.single_apply, hr, hc]
  rw [← hS] at hstep
  linear_combination hstep

/-! ## All columns -/

/-- **What the factorization keeps** after `k` columns: the matrix is what is left between the
factor so far and its transpose, and the first `k` entries of its diagonal are positive. -/
structure Factored (A : Mat ℝ n n) (k : ℕ) (L : Mat ℝ n n) : Prop where
  /-- The matrix, in factors. -/
  mirrored_eq : A.mirrored
    = leading k (lowerFactor L) * remaining k L * (leading k (lowerFactor L))ᵀ
  /-- The diagonal of the factor. -/
  positive : ∀ c : Fin n, c.val < k → 0 < Mat.entry L c c

theorem Factored.zero (A : Mat ℝ n n) : Factored A 0 A where
  mirrored_eq := by
    rw [leading_zero, remaining_zero, Matrix.transpose_one, Matrix.mul_one, Matrix.one_mul]
  positive c hc := absurd hc (Nat.not_lt_zero _)

theorem Factored.succ {A L : Mat ℝ n n} {k : Fin n} (hL : Factored A k L)
    (hk : 0 < remaining k L k k) : Factored A (k + 1) (factorColumn L k) where
  mirrored_eq := by
    rw [leading_lowerFactor_succ, leading_lowerFactor_factorColumn, Matrix.transpose_mul,
      hL.mirrored_eq, ← columnFactor_mul_remaining hk]
    simp only [Matrix.mul_assoc]
  positive c hc := by
    rcases eq_or_ne c k with rfl | hne
    · rw [entry_factorColumn_self]
      exact Real.sqrt_pos.mpr hk
    · have hlt : c.val < k.val := by
        have := Fin.val_ne_of_ne hne
        omega
      rw [entry_factorColumn_of_ne L hne]
      exact hL.positive c hlt

/-- The factorization of some columns keeps this. -/
theorem factored_of_after? {A L : Mat ℝ n n} {k : ℕ} {hk : k ≤ n} (h : after? A k hk = some L) :
    Factored A k L := by
  induction k generalizing L with
  | zero =>
    rw [← Option.some.inj h]
    exact Factored.zero A
  | succ k ih =>
    obtain ⟨L₀, hL₀, hL⟩ := Option.bind_eq_some_iff.mp h
    rw [column?_eq] at hL
    split_ifs at hL with hpivot
    rw [← Option.some.inj hL]
    exact Factored.succ (ih hL₀) hpivot

/-- The factor so far is invertible. -/
theorem Factored.isUnit {A L : Mat ℝ n n} {k : ℕ} (hL : Factored A k L) :
    IsUnit (leading k (lowerFactor L)) := by
  have htriangular : (leading k (lowerFactor L)).IsLowerTriangular := by
    intro r c h
    have h : r < c := h
    rw [leading_apply, lowerFactor_of_lt L h, Matrix.one_apply_ne h.ne, ite_self]
  rw [Matrix.isUnit_iff_isUnit_det, Matrix.det_of_isLowerTriangular _ htriangular,
    isUnit_iff_ne_zero]
  refine Finset.prod_ne_zero_iff.mpr fun c _ => ?_
  rw [leading_apply]
  split_ifs with hc
  · rw [lowerFactor_of_le L le_rfl]
    exact (hL.positive c hc).ne'
  · rw [Matrix.one_apply_eq]
    exact one_ne_zero

/-- The matrix is positive definite exactly if what is left of it is. -/
theorem Factored.posDef_iff {A L : Mat ℝ n n} {k : ℕ} (hL : Factored A k L) :
    A.mirrored.PosDef ↔ (remaining k L).PosDef := by
  rw [hL.mirrored_eq, ← Matrix.conjTranspose_eq_transpose_of_trivial,
    ← Matrix.star_eq_conjTranspose]
  exact Matrix.IsUnit.posDef_star_right_conjugate_iff hL.isUnit

/-- A positive definite matrix is factored to the end. -/
theorem exists_after?_of_posDef {A : Mat ℝ n n} (hA : A.mirrored.PosDef) (k : ℕ) (hk : k ≤ n) :
    ∃ L, after? A k hk = some L := by
  induction k with
  | zero => exact ⟨A, rfl⟩
  | succ k ih =>
    obtain ⟨L, hL⟩ := ih (Nat.le_of_succ_le hk)
    have hpivot : 0 < remaining k L ⟨k, hk⟩ ⟨k, hk⟩ :=
      ((factored_of_after? hL).posDef_iff.mp hA).diag_pos
    refine ⟨factorColumn L ⟨k, hk⟩, ?_⟩
    rw [after?, hL, Option.bind_some, column?_eq]
    exact if_pos hpivot

/-- **The factorization succeeds exactly on the positive definite matrices.** -/
theorem isSome_factor?_iff (A : Mat ℝ n n) : (factor? A).isSome ↔ A.mirrored.PosDef := by
  unfold factor?
  rw [Option.isSome_map, Option.isSome_iff_exists]
  constructor
  · rintro ⟨L, hL⟩
    have hleft := (factored_of_after? hL).posDef_iff
    rw [remaining_self] at hleft
    exact hleft.mpr Matrix.PosDef.one
  · exact fun hA => exists_after?_of_posDef hA n (Nat.le_refl n)

/-! ## Solving -/

/-- One column of the forward substitution. -/
theorem get_lowerStep (F : Cholesky ℝ n) (b : Vec ℝ n) {i : Fin n}
    (hi : Mat.entry F.packed i i ≠ 0) :
    ∃ q, q * lowerFactor F.packed i i = b.get i ∧
      (F.lowerStep b i).get = b.get - q • excess (lowerFactor F.packed) i := by
  have hq : b.get i / Mat.entry F.packed i i * Mat.entry F.packed i i = b.get i :=
    div_mul_cancel₀ _ hi
  refine ⟨b.get i / Mat.entry F.packed i i, by rw [lowerFactor_of_le _ le_rfl, hq], ?_⟩
  funext r
  unfold lowerStep
  rw [Vec.get_ofFn, Pi.sub_apply, Pi.smul_apply, smul_eq_mul, excess_apply]
  rcases lt_trichotomy r i with hr | rfl | hr
  · rw [if_neg (not_lt.mpr hr.le), if_neg hr.ne, if_neg hr.ne, lowerFactor_of_lt _ hr]
    ring
  · rw [if_neg (lt_irrefl r), if_pos rfl, if_pos rfl, lowerFactor_of_le _ le_rfl, mul_sub, hq]
    ring
  · rw [if_pos hr, if_neg hr.ne', lowerFactor_of_le _ hr.le]
    ring

/-- **Forward substitution** keeps what the factor makes of the right-hand side. -/
theorem leading_mulVec_lower {F : Cholesky ℝ n} (hF : ∀ i, Mat.entry F.packed i i ≠ 0)
    (b : Vec ℝ n) (k : ℕ) (hk : k ≤ n) :
    leading k (lowerFactor F.packed) *ᵥ (F.lower b k hk).get = b.get := by
  refine leading_mulVec_run (y := fun k hk => (F.lower b k hk).get)
    (fun k r hr => lowerFactor_of_lt _ hr) ?_ k hk
  intro i
  exact get_lowerStep F (F.lower b i i.isLt.le) (hF i)

/-- One row of the back substitution solves for its entry. -/
theorem get_upperStep (F : Cholesky ℝ n) (b : Vec ℝ n) {i : Fin n}
    (hi : Mat.entry F.packed i i ≠ 0) :
    (F.upperStep b i).get + (excess (lowerFactor F.packed) i ⬝ᵥ (F.upperStep b i).get) •
      Pi.single i 1 = b.get := by
  set d := Mat.entry F.packed i i with hd
  set rest := Vec.dotFrom (i + 1) (Mat.column F.packed i) b with hrest
  set q := (b.get i - rest) / d with hq
  have hget : ∀ r, (F.upperStep b i).get r = if r = i then q else b.get r := Vec.get_set b i q
  have hterm : ∀ r, excess (lowerFactor F.packed) i r * (F.upperStep b i).get r
      = (if r = i then (d - 1) * q else 0)
        + if i.val + 1 ≤ r.val then (Mat.column F.packed i).get r * b.get r else 0 := by
    intro r
    rw [hget, excess_apply, Mat.get_column]
    rcases lt_trichotomy r i with hr | rfl | hr
    · rw [if_neg hr.ne, if_neg hr.ne, if_neg hr.ne, if_neg (by omega), lowerFactor_of_lt _ hr]
      ring
    · rw [if_pos rfl, if_pos rfl, if_pos rfl, if_neg (by omega), lowerFactor_of_le _ le_rfl,
        add_zero]
    · rw [if_neg hr.ne', if_neg hr.ne', if_neg hr.ne', if_pos (by omega),
        lowerFactor_of_le _ hr.le, sub_zero, zero_add]
  have hdot : excess (lowerFactor F.packed) i ⬝ᵥ (F.upperStep b i).get = (d - 1) * q + rest := by
    rw [dotProduct, Finset.sum_congr rfl fun r _ => hterm r, Finset.sum_add_distrib,
      Finset.sum_ite_eq' Finset.univ i, if_pos (Finset.mem_univ i), hrest, Vec.dotFrom_eq]
  funext r
  rw [hdot, Pi.add_apply, Pi.smul_apply, smul_eq_mul, Pi.single_apply, hget]
  split_ifs with hr
  · have hqd : q * d = b.get i - rest := div_mul_cancel₀ _ hi
    rw [hr]
    linear_combination hqd
  · rw [mul_zero, add_zero]

/-- **Back substitution** solves for the right-hand side with the transposed factor. -/
theorem leading_transpose_mulVec_upper {F : Cholesky ℝ n} (hF : ∀ i, Mat.entry F.packed i i ≠ 0)
    (b : Vec ℝ n) (k : ℕ) (hk : k ≤ n) :
    (leading k (lowerFactor F.packed))ᵀ *ᵥ (F.upper b k hk).get = b.get := by
  induction k generalizing b with
  | zero => rw [leading_zero, Matrix.transpose_one, Matrix.one_mulVec, upper]
  | succ k ih =>
    let i : Fin n := ⟨k, hk⟩
    set c := F.upperStep b i
    set x := F.upper c k (Nat.le_of_succ_le hk)
    have hx : (leading k (lowerFactor F.packed))ᵀ *ᵥ x.get = c.get := ih c _
    have hexcess : leading k (lowerFactor F.packed) *ᵥ excess (lowerFactor F.packed) i
        = excess (lowerFactor F.packed) i :=
      leading_mulVec_excess (k := i) fun r hr => lowerFactor_of_lt _ hr
    -- the column meets only entries that are solved for already
    have hdot : excess (lowerFactor F.packed) i ⬝ᵥ x.get
        = excess (lowerFactor F.packed) i ⬝ᵥ c.get := by
      rw [← hx, Matrix.dotProduct_mulVec, Matrix.vecMul_transpose, hexcess]
    show (leading (i + 1) (lowerFactor F.packed))ᵀ *ᵥ x.get = b.get
    rw [leading_succ, Matrix.transpose_add, transpose_vecMulVec, Matrix.add_mulVec,
      vecMulVec_mulVec, op_smul_eq_smul, hdot]
    refine (congrArg (· + _) hx).trans ?_
    exact get_upperStep F b (hF i)

/-- **What the substitutions answer solves the system.** -/
theorem mirrored_mulVec_solve {A : Mat ℝ n n} {F : Cholesky ℝ n} (hF : factor? A = some F)
    (b : Vec ℝ n) : A.mirrored *ᵥ (F.solve b).get = b.get := by
  obtain ⟨L, hL, rfl⟩ := Option.map_eq_some_iff.mp hF
  have hfactored := factored_of_after? hL
  have hpositive : ∀ i, Mat.entry L i i ≠ 0 := fun i => (hfactored.positive i i.isLt).ne'
  have hA := hfactored.mirrored_eq
  rw [leading_self, remaining_self, Matrix.mul_one] at hA
  have hlower := leading_mulVec_lower (F := ⟨L⟩) hpositive b n (Nat.le_refl n)
  have hupper := leading_transpose_mulVec_upper (F := ⟨L⟩) hpositive
    (lower ⟨L⟩ b n (Nat.le_refl n)) n (Nat.le_refl n)
  rw [leading_self] at hlower hupper
  rw [hA, ← Matrix.mulVec_mulVec, solve, hupper, hlower]

end Cholesky

end InteriorPoint

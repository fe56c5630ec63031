import InteriorPoint.Linear.Lu
import InteriorPoint.Proofs.Linear.Leading
import Mathlib.LinearAlgebra.Matrix.Determinant.Basic

/-!
# What elimination keeps

Elimination with row exchanges factors every square matrix over the real numbers, singular ones
too. With `F` the state after `k` columns, `σ` the row exchanges made so far (`Lu.order`), `Λ` the
multipliers below a diagonal of ones (`Lu.unitLower`) and `C` the stored matrix with the first `k`
columns cleared below the diagonal (`Lu.cleared`),

  `A.submatrix σ id = leading k Λ * C`

and after all columns this is `P·A = L·U`. A column whose pivot is zero is passed over: it is
cleared already, because its pivot was the largest of its entries, and its multipliers are zero.

So the determinant is the product of the pivots up to its sign (`Lu.det_eq_zero_iff`), and what the
two substitutions answer solves the system (`Lu.mulVec_of_solve?`).
-/

open Matrix

namespace InteriorPoint

variable {n : ℕ}

/-! ## Exchanges -/

theorem Vec.get_swap {α : Type} (b : Vec α n) (i k r : Fin n) :
    (b.swap i k i.isLt k.isLt).get r = b.get (Equiv.swap i k r) := by
  rw [Equiv.swap_apply_def, apply_ite b.get, apply_ite b.get]
  refine (Vector.getElem_swap i.isLt k.isLt r.isLt).trans ?_
  simp only [Fin.ext_iff]
  rfl

theorem Mat.toMatrix_swapRows {α : Type} {m : ℕ} (M : Mat α m n) (i k : Fin m) :
    (swapRows M i k).toMatrix = M.toMatrix.submatrix (Equiv.swap i k) id := by
  ext r j
  show entry (swapRows M i k) r j = entry M (Equiv.swap i k r) j
  rw [entry_swapRows, Equiv.swap_apply_def, apply_ite (entry M · j), apply_ite (entry M · j)]

namespace Lu

/-- **Where the rows come from**: row `i` after the row exchanges was row `order i` before
them. -/
def order {α : Type} (F : Lu α n) : Equiv.Perm (Fin n) :=
  (F.swaps.map fun s => Equiv.swap s.1 s.2).prod

theorem get_permute {α : Type} [Scalar α] (F : Lu α n) (b : Vec α n) (i : Fin n) :
    (F.permute b).get i = b.get (F.order i) := by
  unfold permute order
  induction F.swaps generalizing b with
  | nil => rfl
  | cons s swaps ih =>
    rw [List.foldl_cons, ih, Vec.get_swap, List.map_cons, List.prod_cons, Equiv.Perm.mul_apply]

/-- An exchange of rows that are not among the first `k` keeps the others in place. -/
theorem swap_of_lt {k r : Fin n} {p : Fin n} (hp : k ≤ p) (hr : r < k) : Equiv.swap k p r = r :=
  Equiv.swap_apply_of_ne_of_ne hr.ne (hr.trans_le hp).ne

/-- An exchange of rows that are not among the first `k` keeps these apart from the others. -/
theorem le_swap {k r : Fin n} {p : Fin n} (hp : k ≤ p) (hr : k ≤ r) : k ≤ Equiv.swap k p r := by
  rw [Equiv.swap_apply_def]
  split_ifs
  · exact hp
  · exact le_rfl
  · exact hr

/-! ## The pivot -/

/-- The scan for a pivot stays on or below the diagonal and ends at an entry that is at least as
large as where it started and as every entry it has met below the diagonal. -/
theorem scan_pivot (A : Mat ℝ n n) (i : Fin n) (rows : List (Fin n)) {best : Fin n}
    (hbest : i ≤ best) :
    ∃ p, rows.foldl (fun best r => if i < r ∧ Scalar.abs (Mat.entry A best i)
        < Scalar.abs (Mat.entry A r i) then r else best) best = p ∧ i ≤ p ∧
      |Mat.entry A best i| ≤ |Mat.entry A p i| ∧
      ∀ r ∈ rows, i < r → |Mat.entry A r i| ≤ |Mat.entry A p i| := by
  induction rows generalizing best with
  | nil => exact ⟨best, rfl, hbest, le_rfl, fun r hr => absurd hr List.not_mem_nil⟩
  | cons r rows ih =>
    rw [List.foldl_cons]
    split_ifs with h
    · obtain ⟨p, hp, hip, hstart, hrows⟩ := ih h.1.le
      refine ⟨p, hp, hip, h.2.le.trans hstart, ?_⟩
      exact List.forall_mem_cons.mpr ⟨fun _ => hstart, hrows⟩
    · obtain ⟨p, hp, hip, hstart, hrows⟩ := ih hbest
      refine ⟨p, hp, hip, hstart, List.forall_mem_cons.mpr ⟨fun hr => ?_, hrows⟩⟩
      exact (not_lt.mp fun hlt => h ⟨hr, hlt⟩).trans hstart

/-- **The pivot** stands on or below the diagonal and is the largest entry there. -/
theorem pivotRow_spec (A : Mat ℝ n n) (i : Fin n) :
    i ≤ pivotRow A i ∧ ∀ r, i ≤ r → |Mat.entry A r i| ≤ |Mat.entry A (pivotRow A i) i| := by
  obtain ⟨p, hp, hip, hstart, hrows⟩ := scan_pivot A i (List.finRange n) (le_refl i)
  have hpivot : pivotRow A i = p := by rw [pivotRow, Fin.foldl_eq_finRange_foldl, hp]
  rw [hpivot]
  refine ⟨hip, fun r hr => ?_⟩
  rcases eq_or_lt_of_le hr with rfl | hr
  · exact hstart
  · exact hrows r (List.mem_finRange r) hr

/-! ## The factors in the stored matrix -/

/-- **The lower factor**: the multipliers below a diagonal of ones. -/
def unitLower (P : Mat ℝ n n) : Matrix (Fin n) (Fin n) ℝ :=
  Matrix.of fun r j => if j < r then Mat.entry P r j else (1 : Matrix (Fin n) (Fin n) ℝ) r j

/-- The stored matrix with the first `k` columns cleared below the diagonal. -/
def cleared (k : ℕ) (P : Mat ℝ n n) : Matrix (Fin n) (Fin n) ℝ :=
  Matrix.of fun r c => if c.val < k ∧ c < r then 0 else Mat.entry P r c

/-- **The upper factor**: what stands on and above the diagonal. -/
def upperFactor (P : Mat ℝ n n) : Matrix (Fin n) (Fin n) ℝ := cleared n P

theorem unitLower_apply (P : Mat ℝ n n) (r j : Fin n) :
    unitLower P r j = if j < r then Mat.entry P r j else (1 : Matrix (Fin n) (Fin n) ℝ) r j := rfl

theorem cleared_apply (k : ℕ) (P : Mat ℝ n n) (r c : Fin n) :
    cleared k P r c = if c.val < k ∧ c < r then 0 else Mat.entry P r c := rfl

theorem upperFactor_apply (P : Mat ℝ n n) (r c : Fin n) :
    upperFactor P r c = if c < r then 0 else Mat.entry P r c := by
  unfold upperFactor
  rw [cleared_apply]
  exact if_congr (and_iff_right c.isLt) rfl rfl

theorem upperFactor_of_lt (P : Mat ℝ n n) {r c : Fin n} (h : c < r) : upperFactor P r c = 0 := by
  rw [upperFactor_apply, if_pos h]

@[simp] theorem cleared_zero (P : Mat ℝ n n) : cleared 0 P = P.toMatrix := by
  ext r c
  rw [cleared_apply, if_neg (fun h => Nat.not_lt_zero _ h.1)]
  rfl

theorem unitLower_self (P : Mat ℝ n n) (k : Fin n) : unitLower P k k = 1 := by
  rw [unitLower_apply, if_neg (lt_irrefl k), Matrix.one_apply_eq]

theorem unitLower_of_lt (P : Mat ℝ n n) {r k : Fin n} (h : r < k) : unitLower P r k = 0 := by
  rw [unitLower_apply, if_neg (not_lt.mpr h.le), Matrix.one_apply_ne h.ne]

theorem excess_unitLower (P : Mat ℝ n n) (k r : Fin n) :
    excess (unitLower P) k r = if k < r then Mat.entry P r k else 0 := by
  rw [excess_apply, unitLower_apply]
  split_ifs with h h' h'
  · exact absurd h' h.ne'
  · exact sub_zero _
  · rw [h', Matrix.one_apply_eq, sub_self]
  · rw [Matrix.one_apply_ne h', sub_zero]

/-! ## One column -/

/-- **An exchange of rows** from row `k` on exchanges the rows of both factors after `k` columns,
and the product of the factors with them. -/
theorem leading_mul_cleared_swapRows (P : Mat ℝ n n) {k p : Fin n} (hp : k ≤ p) :
    leading k (unitLower (Mat.swapRows P k p)) * cleared k (Mat.swapRows P k p)
      = (leading k (unitLower P) * cleared k P).submatrix (Equiv.swap k p) id := by
  have hentry : ∀ r c, Mat.entry (Mat.swapRows P k p) r c = Mat.entry P (Equiv.swap k p r) c :=
    fun r c => congrFun₂ (Mat.toMatrix_swapRows P k p) r c
  -- a place below a column before `k` stays below it
  have hbelow : ∀ r c : Fin n, c < k → (c < Equiv.swap k p r ↔ c < r) := by
    intro r c hc
    rcases lt_or_ge r k with hr | hr
    · rw [swap_of_lt hp hr]
    · exact iff_of_true (hc.trans_le (le_swap hp hr)) (hc.trans_le hr)
  have hlower : leading k (unitLower (Mat.swapRows P k p))
      = (leading k (unitLower P)).submatrix (Equiv.swap k p) (Equiv.swap k p) := by
    ext r j
    rw [Matrix.submatrix_apply]
    simp only [leading_apply, unitLower_apply, hentry]
    rcases lt_or_ge j k with hj | hj
    · rw [swap_of_lt hp hj, if_pos (Fin.lt_def.mp hj), if_pos (Fin.lt_def.mp hj),
        if_congr (hbelow r j hj) rfl rfl]
      split_ifs with hr
      · rfl
      · rw [swap_of_lt hp ((not_lt.mp hr).trans_lt hj)]
    · rw [if_neg (Nat.not_lt.mpr hj), if_neg (Nat.not_lt.mpr (le_swap hp hj)), Matrix.one_apply,
        Matrix.one_apply, if_congr (Equiv.apply_eq_iff_eq _) rfl rfl]
  have hcleared : cleared k (Mat.swapRows P k p) = (cleared k P).submatrix (Equiv.swap k p) id := by
    ext r c
    rw [Matrix.submatrix_apply, cleared_apply, cleared_apply, hentry]
    exact if_congr (and_congr_right fun hc => (hbelow r c hc).symm) rfl rfl
  rw [hlower, hcleared, Matrix.submatrix_mul_equiv]

/-- The stored matrix with column `k` cleared by the entry on its diagonal: the rows below take the
multiple of row `k` off that clears them, and keep the multiplier in the place of the cleared
entry. -/
def clearColumn {α : Type} [Scalar α] (P : Mat α n n) (k : Fin n) : Mat α n n :=
  Vector.ofFn fun r =>
    if k < r then clearedRow (P.get k) (P.get r) k (1 / Mat.entry P k k) else P.get r

theorem entry_clearColumn {α : Type} [Scalar α] (P : Mat α n n) (k r c : Fin n) :
    Mat.entry (clearColumn P k) r c =
      if k < r ∧ k ≤ c then
        if c = k then Mat.entry P r k * (1 / Mat.entry P k k)
        else -Mat.entry P k c * (Mat.entry P r k * (1 / Mat.entry P k k)) + Mat.entry P r c
      else Mat.entry P r c := by
  unfold clearColumn
  rw [Mat.entry, Vec.get_ofFn]
  by_cases hr : k < r
  · rw [if_pos hr, if_congr (and_iff_right hr) rfl rfl, clearedRow, Vec.get_ofFn]
    rcases lt_or_ge c k with hc | hc
    · rw [if_pos hc, if_neg (not_le.mpr hc)]
      rfl
    · rw [if_neg (not_lt.mpr hc), if_pos hc]
      rfl
  · rw [if_neg hr, if_neg (fun h => hr h.1)]
    rfl

/-- The clearing of column `k` leaves the multipliers of the columns before it alone. -/
theorem leading_unitLower_clearColumn (P : Mat ℝ n n) (k : Fin n) :
    leading k (unitLower (clearColumn P k)) = leading k (unitLower P) := by
  ext r j
  rw [leading_apply, leading_apply]
  split_ifs with hj
  · have hout : ¬ (k < r ∧ k ≤ j) := fun h => not_le.mpr hj h.2
    rw [unitLower_apply, unitLower_apply, entry_clearColumn, if_neg hout]
  · rfl

/-- In every column, the clearing of column `k` takes off the multiple of the multipliers that
stands in row `k`. -/
theorem cleared_succ_clearColumn {P : Mat ℝ n n} {k : Fin n} (hk : Mat.entry P k k ≠ 0)
    (c : Fin n) :
    (cleared (k + 1) (clearColumn P k)).col c
      = (cleared k P).col c - cleared k P k c • excess (unitLower (clearColumn P k)) k := by
  funext r
  rw [Pi.sub_apply, Pi.smul_apply, smul_eq_mul, excess_unitLower]
  show cleared (k + 1) (clearColumn P k) r c = cleared k P r c - _
  simp only [cleared_apply, entry_clearColumn]
  -- the columns before `k` are cleared already, and the later ones change below row `k`
  rcases lt_trichotomy c k with hc | rfl | hc
  · simp [hc, not_le.mpr hc, Nat.lt_succ_of_lt (Fin.lt_def.mp hc)]
  · by_cases hr : c < r
    · simp [hr]
      field_simp
      ring
    · simp [hr]
  · have hlate : ¬ (c : ℕ) < k + 1 := by omega
    by_cases hr : k < r
    · simp [hr, hc.le, hc.ne', hlate, not_lt.mpr hc.le]
      ring
    · simp [hr, hlate, not_lt.mpr hc.le]

/-- **The clearing of a column** whose entry on the diagonal is not zero keeps the product of the
factors. -/
theorem leading_mul_cleared_clearColumn {P : Mat ℝ n n} {k : Fin n} (hk : Mat.entry P k k ≠ 0) :
    leading (k + 1) (unitLower (clearColumn P k)) * cleared (k + 1) (clearColumn P k)
      = leading k (unitLower P) * cleared k P := by
  ext r c
  show (leading (k + 1) (unitLower (clearColumn P k)) *ᵥ
      (cleared (k + 1) (clearColumn P k)).col c) r
    = (leading k (unitLower P) *ᵥ (cleared k P).col c) r
  have hone : cleared k P k c * unitLower (clearColumn P k) k k = (cleared k P).col c k := by
    rw [unitLower_self, mul_one]
    rfl
  have hstep := leading_succ_mulVec (fun r hr => unitLower_of_lt (clearColumn P k) hr) hone
  rw [cleared_succ_clearColumn hk, hstep, leading_unitLower_clearColumn]

/-- **A column that is zero below the diagonal** is cleared as it is. -/
theorem leading_mul_cleared_of_zero {P : Mat ℝ n n} {k : Fin n}
    (hk : ∀ r, k < r → Mat.entry P r k = 0) :
    leading (k + 1) (unitLower P) * cleared (k + 1) P = leading k (unitLower P) * cleared k P := by
  have hexcess : excess (unitLower P) k = 0 := by
    funext r
    rw [excess_unitLower]
    split_ifs with hr
    · exact hk r hr
    · rfl
  have hcleared : cleared (k + 1) P = cleared k P := by
    ext r c
    rw [cleared_apply, cleared_apply]
    by_cases hc : c = k
    · subst hc
      by_cases hr : c < r
      · rw [if_pos ⟨Nat.lt_succ_self c, hr⟩, if_neg (fun h => lt_irrefl _ h.1), hk r hr]
      · rw [if_neg (fun h => hr h.2), if_neg (fun h => hr h.2)]
    · have hlt : c.val < k + 1 ↔ c.val < k := by
        have := Fin.val_ne_of_ne hc
        omega
      exact if_congr (and_congr_left' hlt) rfl rfl
  rw [leading_succ, hexcess, zero_vecMulVec, add_zero, hcleared]

/-! ## All columns -/

/-- A column that is passed over. -/
theorem eliminate_of_pivot_eq_zero {F : Lu ℝ n} {i : Fin n}
    (h : Mat.entry F.packed (pivotRow F.packed i) i = 0) : F.eliminate i = F :=
  if_pos ((Scalar.beq_iff _ _).mpr h)

/-- A column that is eliminated: an exchange of rows and a clearing. -/
theorem eliminate_of_not_beq {α : Type} [Scalar α] {F : Lu α n} {i : Fin n}
    (h : ¬ (Mat.entry F.packed (pivotRow F.packed i) i == 0) = true) :
    F.eliminate i =
      { packed := clearColumn (Mat.swapRows F.packed i (pivotRow F.packed i)) i
        swaps := F.swaps ++ [(i, pivotRow F.packed i)] } := by
  have hdiagonal : Mat.entry (Mat.swapRows F.packed i (pivotRow F.packed i)) i i
      = Mat.entry F.packed (pivotRow F.packed i) i := by rw [Mat.entry_swapRows, if_pos rfl]
  unfold clearColumn
  rw [hdiagonal]
  exact if_neg h

/-- Over the real numbers a column is eliminated if its pivot is not zero. -/
theorem eliminate_of_pivot_ne_zero {F : Lu ℝ n} {i : Fin n}
    (h : Mat.entry F.packed (pivotRow F.packed i) i ≠ 0) :
    F.eliminate i =
      { packed := clearColumn (Mat.swapRows F.packed i (pivotRow F.packed i)) i
        swaps := F.swaps ++ [(i, pivotRow F.packed i)] } :=
  eliminate_of_not_beq fun hbeq => h ((Scalar.beq_iff _ _).mp hbeq)

/-- The elimination of a column keeps the given matrix, with its rows exchanged, the product of
the multipliers and of the matrix cleared so far. -/
theorem submatrix_order_eliminate {A : Mat ℝ n n} {F : Lu ℝ n} {i : Fin n}
    (hF : A.toMatrix.submatrix F.order id = leading i (unitLower F.packed) * cleared i F.packed) :
    A.toMatrix.submatrix (F.eliminate i).order id
      = leading (i + 1) (unitLower (F.eliminate i).packed)
        * cleared (i + 1) (F.eliminate i).packed := by
  obtain ⟨hpivot, hlargest⟩ := pivotRow_spec F.packed i
  by_cases h : Mat.entry F.packed (pivotRow F.packed i) i = 0
  · -- the pivot is the largest entry, so the others are zero with it
    have hzero : ∀ r, i < r → Mat.entry F.packed r i = 0 := by
      intro r hr
      have hle := hlargest r hr.le
      rw [h, abs_zero] at hle
      exact abs_nonpos_iff.mp hle
    rw [eliminate_of_pivot_eq_zero h, leading_mul_cleared_of_zero hzero, hF]
  · have hdiagonal : Mat.entry (Mat.swapRows F.packed i (pivotRow F.packed i)) i i ≠ 0 := by
      rw [Mat.entry_swapRows, if_pos rfl]
      exact h
    have horder : (F.eliminate i).order = F.order * Equiv.swap i (pivotRow F.packed i) := by
      rw [eliminate_of_pivot_ne_zero h]
      unfold order
      rw [List.map_append, List.prod_append]
      rfl
    rw [horder, eliminate_of_pivot_ne_zero h, leading_mul_cleared_clearColumn hdiagonal,
      leading_mul_cleared_swapRows _ hpivot, ← hF, Matrix.submatrix_submatrix]
    rfl

/-- **What elimination keeps**: after `k` columns, the given matrix with its rows exchanged is the
product of the multipliers and of the matrix cleared so far. -/
theorem submatrix_order_after (A : Mat ℝ n n) (k : ℕ) (hk : k ≤ n) :
    A.toMatrix.submatrix (after A k hk).order id
      = leading k (unitLower (after A k hk).packed) * cleared k (after A k hk).packed := by
  induction k with
  | zero =>
    rw [leading_zero, Matrix.one_mul, cleared_zero]
    rfl
  | succ k ih => exact submatrix_order_eliminate (i := ⟨k, hk⟩) (ih (Nat.le_of_succ_le hk))

/-- **Elimination factors every matrix.** With the rows exchanged, it is the product of the lower
and the upper factor. -/
theorem submatrix_order_factor (A : Mat ℝ n n) :
    A.toMatrix.submatrix (factor A).order id
      = unitLower (factor A).packed * upperFactor (factor A).packed := by
  have h := submatrix_order_after A n (Nat.le_refl n)
  rwa [leading_self] at h

/-- The determinant is the product of the pivots, up to the sign of the row exchanges. -/
theorem sign_mul_det (A : Mat ℝ n n) :
    (Equiv.Perm.sign (factor A).order : ℝ) * A.toMatrix.det
      = ∏ i, Mat.entry (factor A).packed i i := by
  have hlower : (unitLower (factor A).packed).det = 1 := by
    rw [Matrix.det_of_isLowerTriangular _ fun r j h => unitLower_of_lt _ h]
    exact Finset.prod_eq_one fun i _ => unitLower_self _ i
  have htriangular : (upperFactor (factor A).packed).IsUpperTriangular :=
    fun r c h => upperFactor_of_lt _ h
  have hupper : (upperFactor (factor A).packed).det = ∏ i, Mat.entry (factor A).packed i i := by
    rw [Matrix.det_of_isUpperTriangular htriangular]
    exact Finset.prod_congr rfl fun i _ => by rw [upperFactor_apply, if_neg (lt_irrefl i)]
  rw [← Matrix.det_permute, submatrix_order_factor, Matrix.det_mul, hlower, hupper, one_mul]

/-- **A matrix is singular exactly if one of its pivots is zero.** -/
theorem det_eq_zero_iff (A : Mat ℝ n n) :
    A.toMatrix.det = 0 ↔ ∃ i, (factor A).pivots.get i = 0 := by
  have hsign : (Equiv.Perm.sign (factor A).order : ℝ) ≠ 0 :=
    Int.cast_ne_zero.mpr (Units.ne_zero _)
  rw [← mul_eq_zero_iff_left hsign, sign_mul_det, Finset.prod_eq_zero_iff]
  simp [pivots]

/-! ## Solving -/

/-- One column of the forward substitution. -/
theorem get_lowerStep (F : Lu ℝ n) (b : Vec ℝ n) (i : Fin n) :
    (F.lowerStep b i).get = b.get - b.get i • excess (unitLower F.packed) i := by
  funext r
  rw [Pi.sub_apply, Pi.smul_apply, smul_eq_mul, excess_unitLower, lowerStep, Vec.get_ofFn]
  split_ifs with hr
  · ring
  · rw [mul_zero, sub_zero]

/-- **Forward substitution** keeps what the lower factor makes of the right-hand side. -/
theorem leading_mulVec_lower (F : Lu ℝ n) (b : Vec ℝ n) (k : ℕ) (hk : k ≤ n) :
    leading k (unitLower F.packed) *ᵥ (F.lower b k hk).get = b.get := by
  refine leading_mulVec_run (y := fun k hk => (F.lower b k hk).get)
    (fun k r hr => unitLower_of_lt _ hr) ?_ k hk
  intro i
  refine ⟨(F.lower b i i.isLt.le).get i, ?_, get_lowerStep F _ i⟩
  rw [unitLower_self, mul_one]

/-- One column of the back substitution. -/
theorem get_of_upperStep? {F : Lu ℝ n} {b c : Vec ℝ n} {i : Fin n} (h : F.upperStep? b i = some c) :
    ∃ q, q * upperFactor F.packed i i = b.get i ∧
      c.get = b.get - q • excess (upperFactor F.packed) i := by
  unfold upperStep? at h
  split_ifs at h with hpivot
  have hpivot : Mat.entry F.packed i i ≠ 0 := fun h0 => hpivot ((Scalar.beq_iff _ _).mpr h0)
  have hdiagonal : upperFactor F.packed i i = Mat.entry F.packed i i := by
    rw [upperFactor_apply, if_neg (lt_irrefl i)]
  have hq : b.get i / Mat.entry F.packed i i * Mat.entry F.packed i i = b.get i :=
    div_mul_cancel₀ _ hpivot
  refine ⟨b.get i / Mat.entry F.packed i i, by rw [hdiagonal, hq], ?_⟩
  funext r
  rw [← Option.some.inj h, Vec.get_ofFn, Pi.sub_apply, Pi.smul_apply, smul_eq_mul, excess_apply]
  rcases lt_trichotomy r i with hr | rfl | hr
  · rw [if_pos hr, if_neg hr.ne, upperFactor_apply, if_neg (not_lt.mpr hr.le)]
    ring
  · rw [if_neg (lt_irrefl r), if_pos rfl, if_pos rfl, hdiagonal, mul_sub, hq]
    ring
  · rw [if_neg (not_lt.mpr hr.le), if_neg hr.ne', if_neg hr.ne', upperFactor_of_lt _ hr]
    ring

/-- **Back substitution** solves for the right-hand side with the upper factor. -/
theorem leading_mulVec_of_upper? {F : Lu ℝ n} {b x : Vec ℝ n} {k : ℕ} {hk : k ≤ n}
    (h : F.upper? b k hk = some x) : leading k (upperFactor F.packed) *ᵥ x.get = b.get := by
  induction k generalizing b with
  | zero =>
    rw [upper?] at h
    rw [leading_zero, Matrix.one_mulVec, Option.some.inj h]
  | succ k ih =>
    obtain ⟨c, hstep, hrest⟩ := Option.bind_eq_some_iff.mp h
    obtain ⟨q, hq, hc⟩ := get_of_upperStep? hstep
    have hx := ih hrest
    rw [hc] at hx
    exact leading_succ_mulVec_eq (k := ⟨k, hk⟩) (fun j hj => upperFactor_of_lt _ hj) hq hx

/-- Back substitution answers unless it meets a pivot that is zero. -/
theorem isSome_upper?_iff {α : Type} [Scalar α] (F : Lu α n) (b : Vec α n) (k : ℕ) (hk : k ≤ n) :
    (F.upper? b k hk).isSome ↔ ∀ i : Fin n, i.val < k → (Mat.entry F.packed i i == 0) = false := by
  induction k generalizing b with
  | zero => exact iff_of_true rfl fun i hi => absurd hi (Nat.not_lt_zero _)
  | succ k ih =>
    have hlt : ∀ i : Fin n, i.val < k + 1 ↔ i.val < k ∨ i = ⟨k, hk⟩ := by
      intro i
      rw [Nat.lt_succ_iff_lt_or_eq, Fin.ext_iff]
    simp only [hlt, or_imp, forall_and, forall_eq]
    rw [upper?, upperStep?]
    split_ifs with hpivot
    · exact iff_of_false Bool.false_ne_true fun h => Bool.false_ne_true (h.2.symm.trans hpivot)
    · rw [Option.bind_some, ih, and_iff_left (Bool.not_eq_true _ ▸ hpivot)]

/-- **Elimination answers** exactly if no pivot is zero, whatever the right-hand side. -/
theorem isSome_solve?_iff {α : Type} [Scalar α] (F : Lu α n) (b : Vec α n) :
    (F.solve? b).isSome ↔ ∀ i, (F.pivots.get i == 0) = false := by
  unfold solve? pivots
  rw [isSome_upper?_iff]
  simp only [Mat.get_diagonal, Fin.is_lt, forall_const]

/-- **What elimination answers solves the system.** -/
theorem mulVec_of_solve? {A : Mat ℝ n n} {b x : Vec ℝ n} (h : (factor A).solve? b = some x) :
    A.toMatrix *ᵥ x.get = b.get := by
  have hupper := leading_mulVec_of_upper? h
  have hlower := leading_mulVec_lower (factor A) ((factor A).permute b) n (Nat.le_refl n)
  rw [leading_self] at hupper hlower
  have hpermuted : (A.toMatrix *ᵥ x.get) ∘ (factor A).order = b.get ∘ (factor A).order := by
    calc (A.toMatrix *ᵥ x.get) ∘ (factor A).order
        = A.toMatrix.submatrix (factor A).order id *ᵥ x.get := rfl
      _ = unitLower (factor A).packed *ᵥ upperFactor (factor A).packed *ᵥ x.get := by
          rw [submatrix_order_factor, Matrix.mulVec_mulVec]
      _ = ((factor A).permute b).get := by rw [hupper, hlower]
      _ = b.get ∘ (factor A).order := funext (get_permute _ b)
  exact (factor A).order.surjective.injective_comp_right hpermuted

end Lu

end InteriorPoint

import InteriorPoint.Proofs.Linear.Elimination
import InteriorPoint.Proofs.Linear.Signature
import InteriorPoint.Proofs.Linear.SquareRoot

/-!
# Matrices in another unit

In another unit every entry of a matrix is multiplied by the same number `c` (`Mat.scaled`). What
elimination does then does not depend on the unit: it compares entries of one column to find a
pivot, and the multipliers are quotients of two entries, so they stay what they are. Everything else
is `c` times as large. After `k` columns the stored matrix is the one that it would be in the old
unit, multiplied by `c` except at the multipliers (`Lu.after_scaled`), and in the end all the pivots
are `c` times as large (`Lu.pivots_factor_scaled`).

The eigenvalues of a matrix are `c` times as large too (`roots_charpoly_smul`), though a program may
find them in another order; the largest absolute value does not depend on it
(`Vec.largestAbs_eq_of_perm`).
-/

open Matrix

namespace InteriorPoint

variable {m n : ℕ} {c : ℝ}

namespace Mat

/-- **A matrix in another unit.** -/
noncomputable def scaled (c : ℝ) (M : Mat ℝ m n) : Mat ℝ m n := mapEntries (c * ·) M

@[simp] theorem entry_scaled (c : ℝ) (M : Mat ℝ m n) (i : Fin m) (j : Fin n) :
    entry (scaled c M) i j = c * entry M i j :=
  entry_mapEntries _ M i j

theorem toMatrix_scaled (c : ℝ) (M : Mat ℝ m n) : (scaled c M).toMatrix = c • M.toMatrix :=
  Matrix.ext (entry_scaled c M)

theorem mirrored_scaled (c : ℝ) (M : Mat ℝ n n) : (scaled c M).mirrored = c • M.mirrored := by
  ext i j
  rcases le_total j i with h | h
  · rw [Matrix.smul_apply, mirrored_of_le _ h, mirrored_of_le _ h, entry_scaled, smul_eq_mul]
  · rw [Matrix.smul_apply, mirrored_comm, mirrored_comm M, mirrored_of_le _ h, mirrored_of_le _ h,
      entry_scaled, smul_eq_mul]

theorem transpose_scaled (c : ℝ) (M : Mat ℝ m n) :
    transpose (scaled c M) = scaled c (transpose M) :=
  ext_entry fun i j => by
    rw [entry_transpose, entry_scaled, entry_scaled, entry_transpose]

end Mat

/-! ## Extreme absolute values -/

namespace Vec

/-- The largest absolute value is a maximum. -/
theorem largestAbs_eq_foldl (l : List ℝ) :
    largestAbs l = l.foldl (fun m e => max m |e|) 0 := by
  have hstep : ∀ m e : ℝ, (if Scalar.abs e ≤ m then m else Scalar.abs e) = max m |e| := by
    intro m e
    rw [max_comm, max_def]
    rfl
  cases l with
  | nil => rfl
  | cons e es =>
    rw [List.foldl_cons, max_eq_right (abs_nonneg e)]
    show es.foldl _ (Scalar.abs e) = _
    simp only [hstep]
    rfl

/-- The smallest absolute value is a minimum. -/
theorem smallestAbs_cons (e : ℝ) (es : List ℝ) :
    smallestAbs (e :: es) = es.foldl (fun m e => min m |e|) |e| := by
  have hstep : ∀ m e : ℝ, (if m ≤ Scalar.abs e then m else Scalar.abs e) = min m |e| := by
    intro m e
    rw [min_def]
    rfl
  show es.foldl _ (Scalar.abs e) = _
  simp only [hstep]
  rfl

/-- **The order does not matter** for the largest absolute value. -/
theorem largestAbs_eq_of_perm {l l' : List ℝ} (h : l.Perm l') : largestAbs l = largestAbs l' := by
  rw [largestAbs_eq_foldl, largestAbs_eq_foldl]
  have : RightCommutative fun m e : ℝ => max m |e| := ⟨fun m a b => max_right_comm m |a| |b|⟩
  exact h.foldl_eq 0

theorem largestAbs_map_mul (hc : 0 ≤ c) (l : List ℝ) :
    largestAbs (l.map (c * ·)) = c * largestAbs l := by
  have hstep : ∀ m e : ℝ, max (c * m) |c * e| = c * max m |e| := by
    intro m e
    rw [abs_mul, abs_of_nonneg hc, mul_max_of_nonneg _ _ hc]
  have hfold : l.foldl (fun m e => max m |c * e|) (c * 0) = c * l.foldl (fun m e => max m |e|) 0 :=
    List.foldl_hom (c * ·) hstep
  rw [largestAbs_eq_foldl, largestAbs_eq_foldl, List.foldl_map, ← hfold, mul_zero]

theorem smallestAbs_map_mul (hc : 0 ≤ c) (l : List ℝ) :
    smallestAbs (l.map (c * ·)) = c * smallestAbs l := by
  have hstep : ∀ m e : ℝ, min (c * m) |c * e| = c * min m |e| := by
    intro m e
    rw [abs_mul, abs_of_nonneg hc, mul_min_of_nonneg _ _ hc]
  cases l with
  | nil => exact (mul_zero c).symm
  | cons e es =>
    have hfold : es.foldl (fun m e => min m |c * e|) (c * |e|)
        = c * es.foldl (fun m e => min m |e|) |e| := List.foldl_hom (c * ·) hstep
    rw [List.map_cons, smallestAbs_cons, smallestAbs_cons, List.foldl_map, ← hfold, abs_mul,
      abs_of_nonneg hc]

end Vec

/-! ## Elimination -/

namespace Lu

/-- **A stored matrix in another unit**, after `k` columns: the multipliers are numbers without a
unit. -/
noncomputable def rescaled (c : ℝ) (k : ℕ) (P : Mat ℝ n n) : Mat ℝ n n :=
  Mat.of fun r j => if j.val < k ∧ j < r then Mat.entry P r j else c * Mat.entry P r j

theorem entry_rescaled (c : ℝ) (k : ℕ) (P : Mat ℝ n n) (r j : Fin n) :
    Mat.entry (rescaled c k P) r j
      = if j.val < k ∧ j < r then Mat.entry P r j else c * Mat.entry P r j :=
  Mat.entry_of _ r j

/-- The columns from column `k` on hold no multipliers. -/
theorem entry_rescaled_of_le {k : ℕ} (P : Mat ℝ n n) (r : Fin n) {j : Fin n} (h : k ≤ j.val) :
    Mat.entry (rescaled c k P) r j = c * Mat.entry P r j := by
  rw [entry_rescaled, if_neg fun hlt => absurd hlt.1 (not_lt.mpr h)]

theorem rescaled_zero (c : ℝ) (P : Mat ℝ n n) : rescaled c 0 P = Mat.scaled c P :=
  Mat.ext_entry fun r j => by
    rw [entry_rescaled_of_le P r (Nat.zero_le _), Mat.entry_scaled]

/-- **The pivot row does not depend on the unit.** -/
theorem pivotRow_rescaled (hc : c ≠ 0) (P : Mat ℝ n n) (i : Fin n) :
    pivotRow (rescaled c i P) i = pivotRow P i := by
  have hsmaller : ∀ a b : Fin n,
      Scalar.abs (Mat.entry (rescaled c i P) a i) < Scalar.abs (Mat.entry (rescaled c i P) b i)
        ↔ Scalar.abs (Mat.entry P a i) < Scalar.abs (Mat.entry P b i) := by
    intro a b
    rw [entry_rescaled_of_le P a le_rfl, entry_rescaled_of_le P b le_rfl]
    show |c * _| < |c * _| ↔ _
    rw [abs_mul, abs_mul]
    exact mul_lt_mul_iff_right₀ (abs_pos.mpr hc)
  unfold pivotRow
  simp only [hsmaller]

/-- A place below a column before column `i` stays below it when later rows are exchanged. -/
theorem lt_swap_iff {i p j : Fin n} (hp : i ≤ p) (hj : j < i) (r : Fin n) :
    j < Equiv.swap i p r ↔ j < r := by
  rcases lt_or_ge r i with hr | hr
  · rw [swap_of_lt hp hr]
  · exact iff_of_true (hj.trans_le (le_swap hp hr)) (hj.trans_le hr)

theorem swapRows_rescaled {i p : Fin n} (hp : i ≤ p) (P : Mat ℝ n n) :
    Mat.swapRows (rescaled c i P) i p = rescaled c i (Mat.swapRows P i p) := by
  have hentry : ∀ (Q : Mat ℝ n n) r j,
      Mat.entry (Mat.swapRows Q i p) r j = Mat.entry Q (Equiv.swap i p r) j := fun Q r j =>
    congrFun₂ (Mat.toMatrix_swapRows Q i p) r j
  refine Mat.ext_entry fun r j => ?_
  rw [hentry, entry_rescaled, entry_rescaled, hentry]
  exact if_congr (and_congr_right fun hj => lt_swap_iff hp hj r) rfl rfl

/-- **The clearing of a column** leaves multipliers that do not depend on the unit. -/
theorem clearColumn_rescaled (hc : c ≠ 0) (P : Mat ℝ n n) (i : Fin n) :
    clearColumn (rescaled c i P) i = rescaled c (i + 1) (clearColumn P i) := by
  have hmultiplier : ∀ a d : ℝ, c * a * (1 / (c * d)) = a * (1 / d) := by
    intro a d
    rw [mul_one_div, mul_div_mul_left _ _ hc, mul_one_div]
  refine Mat.ext_entry fun r j => ?_
  rw [entry_clearColumn, entry_rescaled c (i + 1), entry_clearColumn]
  by_cases hcleared : i < r ∧ i ≤ j
  · rw [if_pos hcleared, if_pos hcleared, entry_rescaled_of_le P i le_rfl,
      entry_rescaled_of_le P r le_rfl, entry_rescaled_of_le P i hcleared.2,
      entry_rescaled_of_le P r hcleared.2, hmultiplier]
    by_cases hj : j = i
    · have hbelow : j.val < i + 1 ∧ j < r := ⟨hj ▸ Nat.lt_succ_self _, hj ▸ hcleared.1⟩
      rw [if_pos hj, if_pos hj, if_pos hbelow]
    · have hlater : ¬ j.val < i + 1 := fun h => hj (le_antisymm (Nat.le_of_lt_succ h) hcleared.2)
      rw [if_neg hj, if_neg hj, if_neg fun h => hlater h.1]
      ring
  · have hbelow : j.val < i ∧ j < r ↔ j.val < i + 1 ∧ j < r := by
      rw [Fin.lt_def, Fin.le_def] at hcleared
      rw [Fin.lt_def]
      omega
    rw [if_neg hcleared, if_neg hcleared, entry_rescaled]
    exact if_congr hbelow rfl rfl

/-- A column that is zero below the diagonal is the same in every unit. -/
theorem rescaled_succ_of_zero {P : Mat ℝ n n} {i : Fin n}
    (hi : ∀ r, i < r → Mat.entry P r i = 0) : rescaled c (i + 1) P = rescaled c i P := by
  refine Mat.ext_entry fun r j => ?_
  by_cases hj : j = i
  · subst hj
    rw [entry_rescaled_of_le P r le_rfl, entry_rescaled]
    split_ifs with hr
    · rw [hi r hr.2, mul_zero]
    · rfl
  · have hlt : j.val < i + 1 ↔ j.val < i := by
      have := Fin.val_ne_of_ne hj
      omega
    rw [entry_rescaled, entry_rescaled]
    exact if_congr (and_congr_left' hlt) rfl rfl

/-- The state of an elimination in another unit, after `k` columns. -/
noncomputable def inUnits (c : ℝ) (k : ℕ) (F : Lu ℝ n) : Lu ℝ n :=
  { packed := rescaled c k F.packed, swaps := F.swaps }

/-- **The elimination of a column** does the same in every unit. -/
theorem eliminate_inUnits (hc : c ≠ 0) (F : Lu ℝ n) (i : Fin n) :
    (F.inUnits c i).eliminate i = (F.eliminate i).inUnits c (i + 1) := by
  have hrow : pivotRow (F.inUnits c i).packed i = pivotRow F.packed i :=
    pivotRow_rescaled hc F.packed i
  have hentry : Mat.entry (F.inUnits c i).packed (pivotRow F.packed i) i
      = c * Mat.entry F.packed (pivotRow F.packed i) i := entry_rescaled_of_le F.packed _ le_rfl
  obtain ⟨hbelow, hlargest⟩ := pivotRow_spec F.packed i
  by_cases hpivot : Mat.entry F.packed (pivotRow F.packed i) i = 0
  · -- the pivot is the largest entry, so the others are zero with it
    have hzero : ∀ r, i < r → Mat.entry F.packed r i = 0 := by
      intro r hr
      have hle := hlargest r hr.le
      rw [hpivot, abs_zero] at hle
      exact abs_nonpos_iff.mp hle
    have hscaled : Mat.entry (F.inUnits c i).packed (pivotRow (F.inUnits c i).packed i) i = 0 := by
      rw [hrow, hentry, hpivot, mul_zero]
    rw [eliminate_of_pivot_eq_zero hscaled, eliminate_of_pivot_eq_zero hpivot, inUnits, inUnits,
      rescaled_succ_of_zero hzero]
  · have hscaled : Mat.entry (F.inUnits c i).packed (pivotRow (F.inUnits c i).packed i) i ≠ 0 := by
      rw [hrow, hentry]
      exact mul_ne_zero hc hpivot
    rw [eliminate_of_pivot_ne_zero hscaled, eliminate_of_pivot_ne_zero hpivot, hrow]
    simp only [inUnits]
    rw [swapRows_rescaled hbelow, clearColumn_rescaled hc]

/-- **Elimination makes the same exchanges and multipliers in every unit.** -/
theorem after_scaled (hc : c ≠ 0) (A : Mat ℝ n n) (k : ℕ) (hk : k ≤ n) :
    after (Mat.scaled c A) k hk = (after A k hk).inUnits c k := by
  induction k with
  | zero => rw [after, after, inUnits, rescaled_zero]
  | succ k ih =>
    rw [after, after, ih (Nat.le_of_succ_le hk)]
    exact eliminate_inUnits hc _ ⟨k, hk⟩

/-- The pivots have the unit of the matrix. -/
theorem pivots_factor_scaled (hc : c ≠ 0) (A : Mat ℝ n n) :
    (factor (Mat.scaled c A)).pivots.toList = (factor A).pivots.toList.map (c * ·) := by
  have hpivots : (factor (Mat.scaled c A)).pivots = (factor A).pivots.map (c * ·) := by
    refine Vec.ext_get fun i => ?_
    have hmap : ((factor A).pivots.map (c * ·)).get i = c * (factor A).pivots.get i :=
      Vector.getElem_map _ i.isLt
    rw [hmap, pivots, pivots, Mat.get_diagonal, Mat.get_diagonal, factor, after_scaled hc]
    exact (entry_rescaled c n _ i i).trans (if_neg fun h => lt_irrefl i h.2)
  rw [hpivots, Vector.toList_map]

end Lu

/-! ## Eigenvalues -/

/-- **The eigenvalues of a matrix in another unit.** -/
theorem roots_charpoly_smul {ι : Type*} [Fintype ι] [DecidableEq ι] (hc : c ≠ 0)
    (K : Matrix ι ι ℝ) : (c • K).charpoly.roots = K.charpoly.roots.map (c * ·) := by
  have hcomp : (c • K).charpoly.comp (.C c * .X + .C 0)
      = .C (c ^ Fintype.card ι) * K.charpoly := by
    refine Polynomial.funext fun t => ?_
    have hdet : Matrix.scalar ι (c * t) - c • K = c • (Matrix.scalar ι t - K) := by
      ext i j
      by_cases hij : i = j <;> simp [hij, mul_sub]
    simp only [Polynomial.eval_comp, Polynomial.eval_add, Polynomial.eval_mul, Polynomial.eval_C,
      Polynomial.eval_X, add_zero, Matrix.eval_charpoly]
    rw [hdet, Matrix.det_smul]
  have hroots := Polynomial.map_roots_comp_C_mul_X_add_C (c • K).charpoly c 0
    (isUnit_iff_ne_zero.mpr hc)
  rw [hcomp, Polynomial.roots_C_mul _ (pow_ne_zero _ hc)] at hroots
  simpa only [add_zero] using hroots.symm

end InteriorPoint

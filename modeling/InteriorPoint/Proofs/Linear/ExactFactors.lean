import InteriorPoint.Proofs.Linear.Elimination
import InteriorPoint.Proofs.Linear.RealEntries
import InteriorPoint.Proofs.Linear.SquareRoot

/-!
# Factorizations over exact scalars

Over exact scalars a factorization of a matrix with real entries never leaves the real numbers: the
pivots that it divides by are not zero, and it takes the roots of positive numbers only. So it
commutes with the embedding of the real numbers (`Exact.liftVec`, `Exact.liftMat`), and so do the
substitutions: what is shown of a solver over `ℝ` holds, on real inputs, over every exact scalars.
-/

namespace InteriorPoint

variable {α : Type} [Scalar α] [Exact α] {m n : ℕ}

namespace Exact

/-! ## Stored vectors and matrices -/

/-- A stored vector of real numbers over exact scalars. -/
def liftVec (x : Vec ℝ n) : Vec α n := vec x.get

/-- A stored matrix of real numbers over exact scalars. -/
def liftMat (M : Mat ℝ m n) : Mat α m n := mat M.toMatrix

@[simp] theorem get_liftVec (x : Vec ℝ n) (i : Fin n) :
    (liftVec x : Vec α n).get i = real (x.get i) :=
  get_vec x.get i

@[simp] theorem entry_liftMat (M : Mat ℝ m n) (i : Fin m) (j : Fin n) :
    Mat.entry (liftMat M : Mat α m n) i j = real (Mat.entry M i j) :=
  entry_mat M.toMatrix i j

/-- A real vector is the lifted one with its entries. -/
theorem liftVec_vec (x : Fin n → ℝ) : (liftVec (vec x) : Vec α n) = vec x := by
  rw [liftVec, get_vec_real]

/-- A real matrix is the lifted one with its entries. -/
theorem liftMat_mat (M : Matrix (Fin m) (Fin n) ℝ) : (liftMat (mat M) : Mat α m n) = mat M := by
  rw [liftMat, toMatrix_mat_real]

/-- A real number equals zero as a scalar if it is zero. -/
theorem real_beq_zero {x : ℝ} : ((real x : α) == 0) = true ↔ (x == 0) = true := by
  rw [← real_zero, real_beq_real, Scalar.beq_iff]

/-- The inner product of what two lifted vectors hold from a position on. -/
theorem dotFrom_liftVec (s : ℕ) (x y : Vec ℝ n) :
    Vec.dotFrom s (liftVec x : Vec α n) (liftVec y) = real (Vec.dotFrom s x y) := by
  unfold Vec.dotFrom
  simp only [get_liftVec]
  rw [sumProducts_real, Vec.sumProducts_eq]

/-- A column of a lifted matrix. -/
theorem column_liftMat (M : Mat ℝ m n) (j : Fin n) :
    Mat.column (liftMat M : Mat α m n) j = liftVec (Mat.column M j) := by
  refine Vec.ext_get fun i => ?_
  rw [Mat.get_column, entry_liftMat, get_liftVec, Mat.get_column]

/-- An exchange of rows of a lifted matrix. -/
theorem swapRows_liftMat (M : Mat ℝ m n) (i k : Fin m) :
    Mat.swapRows (liftMat M : Mat α m n) i k = liftMat (Mat.swapRows M i k) := by
  refine Mat.ext_entry fun r c => ?_
  simp only [Mat.entry_swapRows, entry_liftMat]
  split_ifs
  · rfl
  · rfl
  · rfl

end Exact

open Exact

/-! ## Square-root factors -/

namespace Cholesky

/-- Factors over the real numbers as factors over exact scalars. -/
def lift (F : Cholesky ℝ n) : Cholesky α n where
  packed := liftMat F.packed

theorem reduced_liftMat (L : Mat ℝ n n) (j r : Fin n) :
    reduced (liftMat L : Mat α n n) j r = real (reduced L j r) := by
  unfold reduced
  rw [entry_liftMat]
  refine foldl_real (fun a k => ?_) _
  rw [entry_liftMat, entry_liftMat, neg_real, mul_real, add_real]

/-- **One column** of a factorization commutes with the embedding. -/
theorem column?_liftMat (L : Mat ℝ n n) (j : Fin n) :
    column? (liftMat L : Mat α n n) j = (column? L j).map liftMat := by
  have hrefuse : ((real (reduced L j j) : α) == 0) = true ∨ ¬ (0 : α) ≤ real (reduced L j j) ↔
      (reduced L j j == 0) = true ∨ ¬ 0 ≤ reduced L j j :=
    or_congr real_beq_zero zero_le_real.not
  unfold column?
  dsimp only
  rw [reduced_liftMat]
  by_cases hpivot : (reduced L j j == 0) = true ∨ ¬ 0 ≤ reduced L j j
  · rw [if_pos hpivot, if_pos (hrefuse.mpr hpivot)]
    rfl
  · rw [if_neg hpivot, if_neg (hrefuse.not.mpr hpivot)]
    obtain ⟨hzero, hnonneg⟩ := not_or.mp hpivot
    have hnonneg : 0 ≤ reduced L j j := not_not.mp hnonneg
    have hpos : 0 < reduced L j j :=
      lt_of_le_of_ne hnonneg fun h => hzero ((Scalar.beq_iff _ _).mpr h.symm)
    refine congrArg some (Mat.ext_entry fun r c => ?_)
    simp only [Mat.entry_of, entry_liftMat, sqrt_real hnonneg, reduced_liftMat, Scalar.sqrt_eq,
      div_real _ (Real.sqrt_pos.mpr hpos).ne']
    split_ifs
    · rfl
    · rfl
    · rfl
    · rfl

theorem after?_liftMat (A : Mat ℝ n n) (k : ℕ) (hk : k ≤ n) :
    after? (liftMat A : Mat α n n) k hk = (after? A k hk).map liftMat := by
  induction k with
  | zero => rfl
  | succ k ih =>
    rw [after?, after?, ih]
    cases after? A k (Nat.le_of_succ_le hk) with
    | none => rfl
    | some L => exact column?_liftMat L ⟨k, hk⟩

/-- **The factorization commutes with the embedding.** -/
theorem factor?_liftMat (A : Mat ℝ n n) :
    factor? (liftMat A : Mat α n n) = (factor? A).map lift := by
  unfold factor?
  rw [after?_liftMat, Option.map_map, Option.map_map]
  rfl

/-- The diagonal of a factor has no zero. -/
theorem entry_ne_zero_of_factor? {A : Mat ℝ n n} {F : Cholesky ℝ n} (hF : factor? A = some F)
    (i : Fin n) : Mat.entry F.packed i i ≠ 0 := by
  obtain ⟨L, hL, rfl⟩ := Option.map_eq_some_iff.mp hF
  exact ((factored_of_after? hL).positive i i.isLt).ne'

theorem lowerStep_lift {F : Cholesky ℝ n} (b : Vec ℝ n) {i : Fin n}
    (hi : Mat.entry F.packed i i ≠ 0) :
    (lift F : Cholesky α n).lowerStep (liftVec b) i = liftVec (F.lowerStep b i) := by
  refine Vec.ext_get fun r => ?_
  unfold lowerStep
  simp only [lift, Vec.get_ofFn, entry_liftMat, get_liftVec, div_real _ hi, neg_real, mul_real,
    add_real]
  split_ifs
  · rfl
  · rfl
  · rfl

theorem lower_lift {F : Cholesky ℝ n} (hF : ∀ i, Mat.entry F.packed i i ≠ 0) (b : Vec ℝ n)
    (k : ℕ) (hk : k ≤ n) :
    (lift F : Cholesky α n).lower (liftVec b) k hk = liftVec (F.lower b k hk) := by
  induction k with
  | zero => rfl
  | succ k ih => rw [lower, lower, ih, lowerStep_lift _ (hF _)]

theorem upperStep_lift {F : Cholesky ℝ n} (b : Vec ℝ n) {i : Fin n}
    (hi : Mat.entry F.packed i i ≠ 0) :
    (lift F : Cholesky α n).upperStep (liftVec b) i = liftVec (F.upperStep b i) := by
  refine Vec.ext_get fun r => ?_
  rw [get_liftVec, upperStep, upperStep, Vec.get_set, Vec.get_set]
  simp only [lift, column_liftMat, dotFrom_liftVec, entry_liftMat, get_liftVec, sub_real,
    div_real _ hi]
  split_ifs
  · rfl
  · rfl

theorem upper_lift {F : Cholesky ℝ n} (hF : ∀ i, Mat.entry F.packed i i ≠ 0) (b : Vec ℝ n)
    (k : ℕ) (hk : k ≤ n) :
    (lift F : Cholesky α n).upper (liftVec b) k hk = liftVec (F.upper b k hk) := by
  induction k generalizing b with
  | zero => rfl
  | succ k ih => rw [upper, upper, upperStep_lift _ (hF _), ih]

/-- **The substitutions commute with the embedding.** -/
theorem solve_lift {A : Mat ℝ n n} {F : Cholesky ℝ n} (hF : factor? A = some F) (b : Vec ℝ n) :
    (lift F : Cholesky α n).solve (liftVec b) = liftVec (F.solve b) := by
  have hdiagonal := entry_ne_zero_of_factor? hF
  rw [solve, solve, lower_lift hdiagonal, upper_lift hdiagonal]

end Cholesky

/-! ## Elimination -/

namespace Lu

/-- Factors over the real numbers as factors over exact scalars. -/
def lift (F : Lu ℝ n) : Lu α n where
  packed := liftMat F.packed
  swaps := F.swaps

theorem pivotRow_liftMat (A : Mat ℝ n n) (i : Fin n) :
    pivotRow (liftMat A : Mat α n n) i = pivotRow A i := by
  unfold pivotRow
  refine congrArg (Fin.foldl n · i) ?_
  funext best r
  refine if_congr (and_congr_right fun _ => ?_) rfl rfl
  rw [entry_liftMat, entry_liftMat, abs_real, abs_real, real_lt_real]
  rfl

/-- The clearing of one column of a lifted matrix. -/
theorem clearColumn_liftMat {P : Mat ℝ n n} {k : Fin n} (hk : Mat.entry P k k ≠ 0) :
    clearColumn (liftMat P : Mat α n n) k = liftMat (clearColumn P k) := by
  refine Mat.ext_entry fun r c => ?_
  rw [entry_liftMat]
  simp only [entry_clearColumn, entry_liftMat]
  rw [← real_one, div_real _ hk, mul_real, neg_real, mul_real, add_real]
  split_ifs
  · rfl
  · rfl
  · rfl

/-- **One column** of an elimination commutes with the embedding. -/
theorem eliminate_lift (F : Lu ℝ n) (i : Fin n) :
    (lift F : Lu α n).eliminate i = lift (F.eliminate i) := by
  have hpivot : Mat.entry (lift F : Lu α n).packed (pivotRow (lift F : Lu α n).packed i) i
      = real (Mat.entry F.packed (pivotRow F.packed i) i) := by
    rw [lift, pivotRow_liftMat, entry_liftMat]
  by_cases hzero : Mat.entry F.packed (pivotRow F.packed i) i = 0
  · rw [eliminate_of_pivot_eq_zero hzero]
    refine if_pos ?_
    rw [hpivot]
    exact real_beq_zero.mpr ((Scalar.beq_iff _ _).mpr hzero)
  · have hbeq : ¬ (Mat.entry (lift F : Lu α n).packed (pivotRow (lift F : Lu α n).packed i) i
        == 0) = true := by
      rw [hpivot]
      exact fun h => hzero ((Scalar.beq_iff _ _).mp (real_beq_zero.mp h))
    have hdiagonal : Mat.entry (Mat.swapRows F.packed i (pivotRow F.packed i)) i i ≠ 0 := by
      rwa [Mat.entry_swapRows, if_pos rfl]
    rw [eliminate_of_not_beq hbeq, eliminate_of_pivot_ne_zero hzero]
    simp only [lift, pivotRow_liftMat, swapRows_liftMat, clearColumn_liftMat hdiagonal]

theorem after_liftMat (A : Mat ℝ n n) (k : ℕ) (hk : k ≤ n) :
    after (liftMat A : Mat α n n) k hk = lift (after A k hk) := by
  induction k with
  | zero => rfl
  | succ k ih => rw [after, after, ih, eliminate_lift]

/-- **Elimination commutes with the embedding.** -/
theorem factor_liftMat (A : Mat ℝ n n) : factor (liftMat A : Mat α n n) = lift (factor A) :=
  after_liftMat A n (Nat.le_refl n)

theorem permute_lift (F : Lu ℝ n) (b : Vec ℝ n) :
    (lift F : Lu α n).permute (liftVec b) = liftVec (F.permute b) := by
  refine Vec.ext_get fun i => ?_
  rw [get_liftVec, get_permute, get_permute, get_liftVec]
  rfl

theorem lowerStep_lift (F : Lu ℝ n) (b : Vec ℝ n) (i : Fin n) :
    (lift F : Lu α n).lowerStep (liftVec b) i = liftVec (F.lowerStep b i) := by
  refine Vec.ext_get fun r => ?_
  unfold lowerStep
  simp only [lift, Vec.get_ofFn, entry_liftMat, get_liftVec, neg_real, mul_real, add_real]
  split_ifs
  · rfl
  · rfl

theorem lower_lift (F : Lu ℝ n) (b : Vec ℝ n) (k : ℕ) (hk : k ≤ n) :
    (lift F : Lu α n).lower (liftVec b) k hk = liftVec (F.lower b k hk) := by
  induction k with
  | zero => rfl
  | succ k ih => rw [lower, lower, ih, lowerStep_lift]

theorem upperStep?_lift (F : Lu ℝ n) (b : Vec ℝ n) (i : Fin n) :
    (lift F : Lu α n).upperStep? (liftVec b) i = (F.upperStep? b i).map liftVec := by
  unfold upperStep?
  simp only [lift, entry_liftMat]
  by_cases hzero : (Mat.entry F.packed i i == 0) = true
  · rw [if_pos hzero, if_pos (real_beq_zero.mpr hzero)]
    rfl
  · have hne : Mat.entry F.packed i i ≠ 0 := fun h => hzero ((Scalar.beq_iff _ _).mpr h)
    rw [if_neg hzero, if_neg (real_beq_zero.not.mpr hzero)]
    refine congrArg some (Vec.ext_get fun r => ?_)
    simp only [Vec.get_ofFn, get_liftVec, div_real _ hne, neg_real, mul_real, add_real]
    split_ifs
    · rfl
    · rfl
    · rfl

theorem upper?_lift (F : Lu ℝ n) (b : Vec ℝ n) (k : ℕ) (hk : k ≤ n) :
    (lift F : Lu α n).upper? (liftVec b) k hk = (F.upper? b k hk).map liftVec := by
  induction k generalizing b with
  | zero => rfl
  | succ k ih =>
    rw [upper?, upper?, upperStep?_lift]
    cases F.upperStep? b ⟨k, hk⟩ with
    | none => rfl
    | some c => exact ih c _

/-- **The substitutions commute with the embedding.** -/
theorem solve?_lift (F : Lu ℝ n) (b : Vec ℝ n) :
    (lift F : Lu α n).solve? (liftVec b) = (F.solve? b).map liftVec := by
  rw [solve?, solve?, permute_lift, lower_lift, upper?_lift]

end Lu

end InteriorPoint

import InteriorPoint.Proofs.Linear.RealMatrix
import Mathlib.LinearAlgebra.Matrix.Block

/-!
# Leading columns

The state of a triangular solve after `k` columns is described by the matrix `leading k M` of the
first `k` columns of `M`, completed by those of the identity: nothing is done at `k = 0`, where it
is the identity, and all is done at `k = n`, where it is `M`.

One more column is a correction of the right-hand side by a multiple of that column. Forward
substitution keeps what the leading columns make of the right-hand side (`leading_succ_mulVec`, and
over a run `leading_mulVec_run`), and backward substitution turns a solution for `k` columns into
one for `k + 1` (`leading_succ_mulVec_eq`). Elimination and the substitutions of both factorizations
are instances of these.
-/

open Matrix

namespace InteriorPoint

variable {n : ℕ} {M : Matrix (Fin n) (Fin n) ℝ}

/-- **The first `k` columns of a matrix**, and those of the identity after them. -/
def leading (k : ℕ) (M : Matrix (Fin n) (Fin n) ℝ) : Matrix (Fin n) (Fin n) ℝ :=
  Matrix.of fun r j => if j.val < k then M r j else (1 : Matrix (Fin n) (Fin n) ℝ) r j

theorem leading_apply (k : ℕ) (M : Matrix (Fin n) (Fin n) ℝ) (r j : Fin n) :
    leading k M r j = if j.val < k then M r j else (1 : Matrix (Fin n) (Fin n) ℝ) r j := rfl

@[simp] theorem leading_zero (M : Matrix (Fin n) (Fin n) ℝ) : leading 0 M = 1 := by
  ext r j
  rw [leading_apply, if_neg (Nat.not_lt_zero j)]

@[simp] theorem leading_self (M : Matrix (Fin n) (Fin n) ℝ) : leading n M = M := by
  ext r j
  rw [leading_apply, if_pos j.isLt]

/-- What column `k` has in excess of the identity. -/
def excess (M : Matrix (Fin n) (Fin n) ℝ) (k : Fin n) : Fin n → ℝ := M.col k - Pi.single k 1

theorem excess_apply (M : Matrix (Fin n) (Fin n) ℝ) (k r : Fin n) :
    excess M k r = M r k - if r = k then 1 else 0 := by
  unfold excess
  rw [Pi.sub_apply, Pi.single_apply]
  rfl

/-- One more column. -/
theorem leading_succ (M : Matrix (Fin n) (Fin n) ℝ) (k : Fin n) :
    leading (k + 1) M = leading k M + vecMulVec (excess M k) (Pi.single k 1) := by
  ext r j
  rw [Matrix.add_apply, vecMulVec_apply, leading_apply, leading_apply, excess_apply,
    Pi.single_apply]
  rcases lt_trichotomy j k with hj | rfl | hj
  · rw [if_pos (Nat.lt_succ_of_lt hj), if_pos (Fin.lt_def.mp hj), if_neg hj.ne, mul_zero, add_zero]
  · rw [if_pos (Nat.lt_succ_self _), if_neg (lt_irrefl _), if_pos rfl, Matrix.one_apply]
    ring
  · rw [if_neg (Nat.not_lt.mpr hj), if_neg (Nat.lt_asymm hj), if_neg hj.ne', mul_zero, add_zero]

/-- One more column, applied to a vector. -/
theorem leading_succ_mulVec_add (M : Matrix (Fin n) (Fin n) ℝ) (k : Fin n) (x : Fin n → ℝ) :
    leading (k + 1) M *ᵥ x = leading k M *ᵥ x + x k • excess M k := by
  rw [leading_succ, Matrix.add_mulVec, vecMulVec_mulVec, single_one_dotProduct, op_smul_eq_smul]

/-- The leading columns leave a vector alone that vanishes at their places. -/
theorem leading_mulVec_of_support {k : ℕ} {d : Fin n → ℝ} (hd : ∀ r : Fin n, r.val < k → d r = 0) :
    leading k M *ᵥ d = d := by
  have hone : leading k M *ᵥ d = (1 : Matrix (Fin n) (Fin n) ℝ) *ᵥ d := by
    funext r
    show ∑ j, leading k M r j * d j = ∑ j, (1 : Matrix (Fin n) (Fin n) ℝ) r j * d j
    refine Finset.sum_congr rfl fun j _ => ?_
    rw [leading_apply]
    split_ifs with hj
    · rw [hd j hj, mul_zero, mul_zero]
    · rfl
  rw [hone, Matrix.one_mulVec]

/-- The leading columns leave the next one alone if it is zero above the diagonal. -/
theorem leading_mulVec_excess {k : Fin n} (hM : ∀ r < k, M r k = 0) :
    leading k M *ᵥ excess M k = excess M k :=
  leading_mulVec_of_support fun r hr => by
    rw [excess_apply, hM r hr, if_neg (Fin.ne_of_lt hr), sub_zero]

/-- A row that vanishes before the diagonal has no part in the leading columns before it. -/
theorem leading_mulVec_apply {k : Fin n} (hM : ∀ j < k, M k j = 0) (x : Fin n → ℝ) :
    (leading k M *ᵥ x) k = x k := by
  have hone : (leading k M *ᵥ x) k = ((1 : Matrix (Fin n) (Fin n) ℝ) *ᵥ x) k := by
    show ∑ j, leading k M k j * x j = ∑ j, (1 : Matrix (Fin n) (Fin n) ℝ) k j * x j
    refine Finset.sum_congr rfl fun j _ => ?_
    rw [leading_apply]
    split_ifs with hj
    · rw [hM j hj, Matrix.one_apply_ne (Fin.ne_of_gt hj)]
    · rfl
  rw [hone, Matrix.one_mulVec]

/-- **Forward substitution.** If column `k` is zero above the diagonal, what the leading columns
make of a right-hand side is kept when the column is taken off it, `q` times. -/
theorem leading_succ_mulVec {k : Fin n} {b : Fin n → ℝ} {q : ℝ} (hM : ∀ r < k, M r k = 0)
    (hq : q * M k k = b k) :
    leading (k + 1) M *ᵥ (b - q • excess M k) = leading k M *ᵥ b := by
  have hk : (b - q • excess M k) k = q := by
    rw [Pi.sub_apply, Pi.smul_apply, excess_apply, if_pos rfl, smul_eq_mul, ← hq]
    ring
  rw [leading_succ_mulVec_add, hk, Matrix.mulVec_sub, Matrix.mulVec_smul,
    leading_mulVec_excess hM, sub_add_cancel]

/-- **A run of forward substitution.** If every step takes its column off, the leading columns make
of the right-hand side that is left what it was at the start. -/
theorem leading_mulVec_run (hM : ∀ k, ∀ r < k, M r k = 0) {y : (k : ℕ) → k ≤ n → Fin n → ℝ}
    (hstep : ∀ k : Fin n, ∃ q, q * M k k = y k k.isLt.le k ∧
      y (k + 1) k.isLt = y k k.isLt.le - q • excess M k) (k : ℕ) (hk : k ≤ n) :
    leading k M *ᵥ y k hk = y 0 (Nat.zero_le n) := by
  induction k with
  | zero => rw [leading_zero, Matrix.one_mulVec]
  | succ k ih =>
    obtain ⟨q, hq, hy⟩ := hstep ⟨k, hk⟩
    have hcolumn := leading_succ_mulVec (hM ⟨k, hk⟩) hq
    rw [← hy] at hcolumn
    exact hcolumn.trans (ih (Nat.le_of_succ_le hk))

/-- **Backward substitution.** If row `k` is zero before the diagonal, a solution for the leading
columns of the right-hand side with column `k` taken off it, `q` times, is one for one more
column. -/
theorem leading_succ_mulVec_eq {k : Fin n} {b x : Fin n → ℝ} {q : ℝ} (hM : ∀ j < k, M k j = 0)
    (hq : q * M k k = b k) (hx : leading k M *ᵥ x = b - q • excess M k) :
    leading (k + 1) M *ᵥ x = b := by
  have hk : x k = q := by
    rw [← leading_mulVec_apply hM x, hx, Pi.sub_apply, Pi.smul_apply, excess_apply, if_pos rfl,
      smul_eq_mul, ← hq]
    ring
  rw [leading_succ_mulVec_add, hx, hk, sub_add_cancel]

end InteriorPoint

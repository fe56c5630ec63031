import InteriorPoint.Linear.Dense
import InteriorPoint.Proofs.Scalar.Real

/-!
# What the checks of dense matrices accept

A check of all positions accepts exactly the matrices that pass it at every position. Over the real
numbers two entries are apart exactly if their distance exceeds the tolerance against their scale.
This is a matter of the two entries and not of their order, and no entry is apart from itself, so a
matrix and its exact transpose are accepted at every tolerance.
-/

namespace InteriorPoint

namespace Dense

variable {α : Type} {m n : ℕ}

/-! ## Checks of all positions -/

/-- A sequence of checks passes exactly if each of them does. -/
theorem forM_eq_ok_iff {ε β : Type} (l : List β) (f : β → Except ε Unit) :
    l.forM f = .ok () ↔ ∀ b ∈ l, f b = .ok () := by
  induction l with
  | nil => exact iff_of_true rfl fun b hb => absurd hb List.not_mem_nil
  | cons b l ih =>
    rw [List.forall_mem_cons, ← ih]
    show (f b >>= fun _ => l.forM f) = .ok () ↔ _
    cases f b with
    | error e => exact iff_of_false (fun h => nomatch h) fun h => nomatch h.1
    | ok _ => exact (and_iff_right rfl).symm

theorem mem_positions (i : Fin m) (j : Fin n) : (i, j) ∈ positions m n :=
  List.mem_flatMap.mpr ⟨i, List.mem_finRange i, List.mem_map.mpr ⟨j, List.mem_finRange j, rfl⟩⟩

section Checks

variable [Scalar α] {tolerance : α}

/-- A check at a position passes exactly if the transposed entry exists and is not apart. -/
theorem checkTransposed_eq_ok_iff {a t : Dense α} {i : Fin a.rows} {j : Fin a.cols} :
    checkTransposed a t tolerance i j = .ok () ↔
      ∃ y, t.get? j i = some y ∧ apart tolerance (Mat.entry a.entries i j) y = false := by
  unfold checkTransposed
  cases t.get? j i with
  | none => exact iff_of_false nofun fun ⟨_, h, _⟩ => nomatch h
  | some y =>
    simp only [Option.some.injEq, exists_eq_left']
    split_ifs with h
    · exact iff_of_false nofun fun hfalse => Bool.false_ne_true (hfalse.symm.trans h)
    · exact iff_of_true rfl (Bool.eq_false_of_not_eq_true h)

/-- **The check of a transpose** accepts exactly if it does so at every position. -/
theorem checkTranspose_eq_ok_iff {a t : Dense α} :
    checkTranspose a t tolerance = .ok () ↔
      ∀ (i : Fin a.rows) (j : Fin a.cols),
        ∃ y, t.get? j i = some y ∧ apart tolerance (Mat.entry a.entries i j) y = false := by
  unfold checkTranspose
  rw [forM_eq_ok_iff]
  refine ⟨fun h i j => ?_, fun h b _ => checkTransposed_eq_ok_iff.mpr (h b.1 b.2)⟩
  exact checkTransposed_eq_ok_iff.mp (h (i, j) (mem_positions i j))

/-- For matrices of transposed shapes every transposed entry exists. -/
theorem checkTranspose_ofMat_eq_ok_iff {A : Mat α m n} {T : Mat α n m} :
    checkTranspose (ofMat A) (ofMat T) tolerance = .ok () ↔
      ∀ i j, apart tolerance (Mat.entry A i j) (Mat.entry T j i) = false := by
  refine checkTranspose_eq_ok_iff.trans (forall₂_congr fun (i : Fin m) (j : Fin n) => ?_)
  rw [get?_ofMat]
  simp only [Option.some.injEq, exists_eq_left']
  rfl

/-- **A matrix is symmetric within a tolerance** exactly if no entry above the diagonal is apart
from the transposed one. -/
theorem firstAsymmetry?_eq_none_iff {M : Mat α n n} :
    firstAsymmetry? M tolerance = none ↔
      ∀ i j, i < j → apart tolerance (Mat.entry M i j) (Mat.entry M j i) = false := by
  unfold firstAsymmetry? aboveDiagonal
  simp only [List.find?_eq_none, List.mem_flatMap, List.mem_map, List.mem_filter, List.mem_finRange,
    true_and, decide_eq_true_eq, Bool.not_eq_true]
  constructor
  · intro h i j hij
    exact h (i, j) ⟨i, j, hij, rfl⟩
  · rintro h _ ⟨i, j, hij, rfl⟩
    exact h i j hij

/-- The check of symmetry hands a square matrix without an asymmetry back. -/
theorem symmetric_of_none {M : Mat α n n} (h : firstAsymmetry? M tolerance = none) :
    (ofMat M).symmetric tolerance = .ok M := by
  unfold symmetric
  rw [square_ofMat]
  refine (pure_bind M _).trans ?_
  rw [show firstAsymmetry? (n := (ofMat M).rows) M tolerance = none from h]
  rfl

/-- It names the first asymmetry of a square matrix. -/
theorem symmetric_of_some {M : Mat α n n} {i j : Fin n}
    (h : firstAsymmetry? M tolerance = some (i, j)) :
    (ofMat M).symmetric tolerance = .error (.notSymmetric i j tolerance) := by
  unfold symmetric
  rw [square_ofMat]
  refine (pure_bind M _).trans ?_
  rw [show firstAsymmetry? (n := (ofMat M).rows) M tolerance = some (i, j) from h]
  rfl

/-- **The check of symmetry** accepts exactly the matrices without an asymmetry. -/
theorem symmetric_eq_ok_iff {M : Mat α n n} :
    (ofMat M).symmetric tolerance = .ok M ↔
      ∀ i j, i < j → apart tolerance (Mat.entry M i j) (Mat.entry M j i) = false := by
  rw [← firstAsymmetry?_eq_none_iff]
  cases h : firstAsymmetry? M tolerance with
  | none => exact iff_of_true (symmetric_of_none h) rfl
  | some p => exact iff_of_false (symmetric_of_some h ▸ nofun) nofun

/-- **It refuses** exactly the matrices with an asymmetry, by the first one. -/
theorem symmetric_eq_error_iff {M : Mat α n n} {e : Error α} :
    (ofMat M).symmetric tolerance = .error e ↔
      ∃ i j, firstAsymmetry? M tolerance = some (i, j) ∧ e = .notSymmetric i j tolerance := by
  rcases h : firstAsymmetry? M tolerance with _ | ⟨i, j⟩
  · exact iff_of_false (symmetric_of_none h ▸ nofun) fun ⟨_, _, h, _⟩ => nomatch h
  · rw [symmetric_of_some h]
    constructor
    · exact fun he => ⟨i, j, rfl, (Except.error.inj he).symm⟩
    · rintro ⟨i', j', hij, rfl⟩
      obtain ⟨rfl, rfl⟩ := Prod.mk.inj (Option.some.inj hij)
      rfl

end Checks

/-! ## Over exact scalars -/

section Exact

variable {α : Type} [Scalar α] [Exact α]

/-- The tolerance for the symmetry of a matrix is a real number. -/
theorem symmetryTolerance_eq_real : (symmetryTolerance : α) = Exact.real (1 / 10 ^ 6) :=
  Exact.tenth_real 6

/-- **Real numbers are apart** if their distance exceeds the tolerance against their scale. -/
theorem apart_real (τ x y : ℝ) :
    apart (Exact.real τ : α) (Exact.real x) (Exact.real y)
      = decide (τ * max (max |x| |y|) 1 < |x - y|) := by
  unfold apart
  rw [Exact.sub_real, Exact.abs_real, Exact.abs_real, Exact.abs_real, Exact.larger_real,
    ← Exact.real_one, Exact.larger_real]
  show (Scalar.isNaN (Exact.real |x - y|) ||
    decide (Exact.real τ * Exact.real _ < Exact.real _)) = _
  rw [Exact.mul_real, Exact.isNaN_real, Bool.false_or]
  exact decide_eq_decide.mpr Exact.real_lt_real

/-- No real number is apart from itself. -/
theorem apart_real_self {τ : ℝ} (hτ : 0 ≤ τ) (x : ℝ) :
    apart (Exact.real τ : α) (Exact.real x) (Exact.real x) = false := by
  have hscale : (0 : ℝ) ≤ max (max |x| |x|) 1 := zero_le_one.trans (le_max_right _ _)
  rw [apart_real, sub_self, abs_zero, decide_eq_false_iff_not, not_lt]
  exact mul_nonneg hτ hscale

end Exact

/-! ## Over the real numbers -/

section Real

variable {τ x y : ℝ}

theorem apart_iff : apart τ x y = true ↔ τ * max (max |x| |y|) 1 < |x - y| :=
  (Bool.eq_iff_iff.mp (apart_real (α := ℝ) τ x y)).trans decide_eq_true_iff

theorem apart_eq_false_iff : apart τ x y = false ↔ |x - y| ≤ τ * max (max |x| |y|) 1 := by
  rw [← Bool.not_eq_true, apart_iff, not_lt]

/-- Being apart does not depend on which of two entries comes first. -/
theorem apart_comm (τ x y : ℝ) : apart τ x y = apart τ y x := by
  rw [Bool.eq_iff_iff, apart_iff, apart_iff, abs_sub_comm, max_comm |x|]

/-- **What is above the diagonal decides** for all positions. -/
theorem forall_above_iff (hτ : 0 ≤ τ) {M : Mat ℝ n n} :
    (∀ i j, i < j → apart τ (Mat.entry M i j) (Mat.entry M j i) = false) ↔
      ∀ i j, apart τ (Mat.entry M i j) (Mat.entry M j i) = false := by
  refine ⟨fun h i j => ?_, fun h i j _ => h i j⟩
  rcases lt_trichotomy i j with hij | rfl | hji
  · exact h i j hij
  · exact apart_real_self (α := ℝ) hτ _
  · rw [apart_comm]
    exact h j i hji

/-- **An exact transpose is accepted** at every tolerance. -/
theorem checkTranspose_transpose (hτ : 0 ≤ τ) (A : Mat ℝ m n) :
    checkTranspose (ofMat A) (ofMat (Mat.transpose A)) τ = .ok () := by
  refine checkTranspose_ofMat_eq_ok_iff.mpr fun i j => ?_
  rw [Mat.entry_transpose]
  exact apart_real_self (α := ℝ) hτ (Mat.entry A i j)

/-- In particular at the one of the solver. -/
theorem checkTranspose_symmetryTolerance (A : Mat ℝ m n) :
    checkTranspose (ofMat A) (ofMat (Mat.transpose A)) symmetryTolerance = .ok () := by
  have htolerance : (0 : ℝ) ≤ 1 / 10 ^ 6 := by positivity
  rw [symmetryTolerance_eq_real]
  exact checkTranspose_transpose htolerance A

end Real

end Dense

end InteriorPoint

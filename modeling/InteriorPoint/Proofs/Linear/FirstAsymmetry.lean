import InteriorPoint.Proofs.Linear.Checks
import Mathlib.Data.Prod.Lex
import Mathlib.Order.Bounds.Basic

/-!
# The asymmetry that is reported

The check of symmetry looks at the positions above the diagonal, the check of a transpose at all of
them, and each stops where it finds two entries apart. Two things have to be seen before the one can
stand for the other. Being apart is a relation of two entries without an order, which no entry has
to itself, so what is above the diagonal decides for all positions. And the positions above the
diagonal come in lexicographic order, so the one at which the search stops is the least of the
asymmetries (`firstAsymmetry?_eq_some_iff`), for a matrix as for its transpose.
-/

namespace InteriorPoint

/-- **The first hit of a search** through a list in increasing order is the least of all hits. -/
theorem find?_eq_some_iff_isLeast {β : Type} [PartialOrder β] {l : List β}
    (hl : l.Pairwise (· < ·)) {p : β → Bool} {b : β} :
    l.find? p = some b ↔ IsLeast {c | c ∈ l ∧ p c = true} b := by
  induction l with
  | nil => exact iff_of_false nofun fun h => nomatch h.1.1
  | cons a l ih =>
    obtain ⟨ha, hl⟩ := List.pairwise_cons.mp hl
    by_cases h : p a = true
    · have hleast : IsLeast {c | c ∈ a :: l ∧ p c = true} a := by
        refine ⟨⟨List.mem_cons_self, h⟩, fun c hc => ?_⟩
        rcases List.mem_cons.mp hc.1 with rfl | hmem
        · exact le_rfl
        · exact (ha c hmem).le
      rw [List.find?_cons_of_pos h]
      exact ⟨fun hab => Option.some.inj hab ▸ hleast, fun hb => congrArg some (hleast.unique hb)⟩
    · have hhits : {c | c ∈ a :: l ∧ p c = true} = {c | c ∈ l ∧ p c = true} := by
        refine Set.ext fun c => and_congr_left fun hc => ?_
        rw [List.mem_cons, or_iff_right]
        rintro rfl
        exact h hc
      rw [List.find?_cons_of_neg h, hhits, ih hl]

namespace Dense

variable {α : Type} {n : ℕ}

/-! ## The order of the search -/

theorem mem_aboveDiagonal {i j : Fin n} : (i, j) ∈ aboveDiagonal n ↔ i < j := by
  simp [aboveDiagonal]

/-- **The positions above the diagonal** come in lexicographic order. -/
theorem pairwise_aboveDiagonal (n : ℕ) : ((aboveDiagonal n).map toLex).Pairwise (· < ·) := by
  unfold aboveDiagonal
  rw [List.pairwise_map, List.pairwise_flatMap]
  constructor
  · intro i _
    rw [List.pairwise_map]
    refine ((List.pairwise_lt_finRange n).filter _).imp fun {j k} hjk => ?_
    exact Prod.Lex.toLex_lt_toLex.mpr (Or.inr ⟨rfl, hjk⟩)
  · refine (List.pairwise_lt_finRange n).imp fun hik p hp q hq => ?_
    obtain ⟨_, -, rfl⟩ := List.mem_map.mp hp
    obtain ⟨_, -, rfl⟩ := List.mem_map.mp hq
    exact Prod.Lex.toLex_lt_toLex.mpr (Or.inl hik)

/-- **The asymmetry that is found** is the least one, row by row. -/
theorem firstAsymmetry?_eq_some_iff [Scalar α] {M : Mat α n n} {tolerance : α} {i j : Fin n} :
    firstAsymmetry? M tolerance = some (i, j) ↔
      IsLeast {p : Fin n ×ₗ Fin n | (ofLex p).1 < (ofLex p).2 ∧ apart tolerance
        (Mat.entry M (ofLex p).1 (ofLex p).2) (Mat.entry M (ofLex p).2 (ofLex p).1) = true}
        (toLex (i, j)) := by
  have habove (p : Fin n ×ₗ Fin n) :
      (ofLex p).1 < (ofLex p).2 ↔ p ∈ (aboveDiagonal n).map toLex := by
    show _ ↔ toLex (ofLex p) ∈ _
    rw [List.mem_map_of_injective toLex.injective]
    exact mem_aboveDiagonal.symm
  simp only [habove]
  rw [← find?_eq_some_iff_isLeast (pairwise_aboveDiagonal n), List.find?_map]
  exact (Option.map_injective toLex.injective).eq_iff.symm

/-! ## Real matrices -/

/-- **The first asymmetry of a real matrix**: the least position above the diagonal at which the
distance of an entry from the transposed one exceeds the tolerance against their scale. -/
def IsFirstAsymmetry (M : Mat ℝ n n) (τ : ℝ) (i j : Fin n) : Prop :=
  IsLeast {p : Fin n ×ₗ Fin n | (ofLex p).1 < (ofLex p).2 ∧
    τ * max (max |Mat.entry M (ofLex p).1 (ofLex p).2| |Mat.entry M (ofLex p).2 (ofLex p).1|) 1
      < |Mat.entry M (ofLex p).1 (ofLex p).2 - Mat.entry M (ofLex p).2 (ofLex p).1|} (toLex (i, j))

/-- It is the one that is found. -/
theorem isFirstAsymmetry_iff {M : Mat ℝ n n} {τ : ℝ} {i j : Fin n} :
    IsFirstAsymmetry M τ i j ↔ firstAsymmetry? M τ = some (i, j) := by
  rw [firstAsymmetry?_eq_some_iff]
  simp only [apart_iff]
  rfl

/-- **A matrix and its transpose** have the same first asymmetry. -/
theorem firstAsymmetry?_transpose (M : Mat ℝ n n) (τ : ℝ) :
    firstAsymmetry? (Mat.transpose M) τ = firstAsymmetry? M τ := by
  refine congrArg (aboveDiagonal n).find? (funext fun p => ?_)
  show apart τ (Mat.entry (Mat.transpose M) p.1 p.2) (Mat.entry (Mat.transpose M) p.2 p.1) = _
  rw [Mat.entry_transpose, Mat.entry_transpose]
  exact apart_comm τ _ _

/-- The check of symmetry comes to the same for both. -/
theorem symmetric_transpose (M : Mat ℝ n n) (τ : ℝ) :
    ((ofMat (Mat.transpose M)).symmetric τ).map (fun _ => ())
      = ((ofMat M).symmetric τ).map fun _ => () := by
  have hsame := firstAsymmetry?_transpose M τ
  cases h : firstAsymmetry? M τ with
  | none =>
    rw [h] at hsame
    rw [symmetric_of_none h, symmetric_of_none hsame]
    rfl
  | some p =>
    rw [h] at hsame
    rw [symmetric_of_some h, symmetric_of_some hsame]
    rfl

/-- The check of a transpose may be made from either side. -/
theorem checkTranspose_comm {m : ℕ} {τ : ℝ} {A : Mat ℝ m n} {T : Mat ℝ n m} :
    checkTranspose (ofMat A) (ofMat T) τ = .ok () ↔
      checkTranspose (ofMat T) (ofMat A) τ = .ok () := by
  rw [checkTranspose_ofMat_eq_ok_iff, checkTranspose_ofMat_eq_ok_iff, forall_comm]
  simp only [apart_comm τ (Mat.entry A _ _)]

end Dense

open InteriorPoint.Dense

/-- **The law of the two checks**, over the real numbers. Under a tolerance that is not negative the
check of symmetry accepts a square matrix exactly if every entry is within the tolerance of the
transposed one, against their scale, and exactly if the matrix passes as its own transpose. If it
refuses the matrix, it names the first asymmetry in lexicographic order, and it comes to the same
for the transposed matrix. The check of a transpose does not depend on which of two matrices is
taken for the transpose of the other, and an exact transpose passes it. -/
theorem tolerance_relation_law {n : ℕ} (M : Mat ℝ n n) {τ : ℝ} (hτ : 0 ≤ τ) :
    ((ofMat M).symmetric τ = .ok M ↔ ∀ i j, |Mat.entry M i j - Mat.entry M j i|
      ≤ τ * max (max |Mat.entry M i j| |Mat.entry M j i|) 1) ∧
    ((ofMat M).symmetric τ = .ok M ↔ checkTranspose (ofMat M) (ofMat M) τ = .ok ()) ∧
    (∀ e, (ofMat M).symmetric τ = .error e ↔
      ∃ i j, IsFirstAsymmetry M τ i j ∧ e = .notSymmetric i j τ) ∧
    ((ofMat (Mat.transpose M)).symmetric τ).map (fun _ => ())
      = ((ofMat M).symmetric τ).map (fun _ => ()) ∧
    ∀ {m k : ℕ} (A : Mat ℝ m k),
      (∀ T : Mat ℝ k m, checkTranspose (ofMat A) (ofMat T) τ = .ok () ↔
        checkTranspose (ofMat T) (ofMat A) τ = .ok ()) ∧
      checkTranspose (ofMat A) (ofMat (Mat.transpose A)) τ = .ok () ∧
      checkTranspose (ofMat (Mat.transpose A)) (ofMat A) τ = .ok () := by
  have haccepts : (ofMat M).symmetric τ = .ok M ↔
      ∀ i j, apart τ (Mat.entry M i j) (Mat.entry M j i) = false :=
    symmetric_eq_ok_iff.trans (forall_above_iff hτ)
  refine ⟨?_, ?_, fun e => ?_, symmetric_transpose M τ, fun A => ⟨fun T => checkTranspose_comm, ?_⟩⟩
  · rw [haccepts]
    exact forall₂_congr fun i j => apart_eq_false_iff
  · rw [haccepts, checkTranspose_ofMat_eq_ok_iff]
  · simp only [isFirstAsymmetry_iff]
    exact symmetric_eq_error_iff
  · exact ⟨checkTranspose_transpose hτ A, checkTranspose_comm.mp (checkTranspose_transpose hτ A)⟩

/-- A matrix with two asymmetries of more than a tenth and a smaller one before them. -/
noncomputable def Mat.uneven : Mat ℝ 3 3 := #v[#v[2, 1, 5], #v[21 / 20, 2, 7], #v[3, 3, 2]]

/-- The law for a matrix whose first asymmetry stands in the corner. -/
theorem tolerance_relation_law_corner :
    (0 : ℝ) ≤ 1 / 10 ∧ (ofMat Mat.uneven).symmetric (1 / 10) = .error (.notSymmetric 0 2 (1 / 10)) ∧
    ((ofMat (Mat.transpose Mat.uneven)).symmetric (1 / 10)).map (fun _ => ())
      = .error (.notSymmetric 0 2 (1 / 10)) := by
  have hτ : (0 : ℝ) ≤ 1 / 10 := by norm_num
  have hfirst : IsFirstAsymmetry Mat.uneven (1 / 10) 0 2 := by
    constructor
    · refine ⟨by decide, ?_⟩
      show 1 / 10 * max (max |5| |3|) 1 < |(5 : ℝ) - 3|
      norm_num
    · rintro ⟨i, j⟩ ⟨hij, happart⟩
      show toLex (0, 2) ≤ toLex (i, j)
      rw [Prod.Lex.toLex_le_toLex]
      by_contra hbefore
      -- the only position before the corner is the one of the smaller asymmetry
      obtain ⟨rfl, rfl⟩ : i = 0 ∧ j = 1 := by
        change i < j at hij
        change ¬ (0 < i ∨ 0 = i ∧ 2 ≤ j) at hbefore
        omega
      change 1 / 10 * max (max |1| |21 / 20|) 1 < |(1 : ℝ) - 21 / 20| at happart
      norm_num at happart
  obtain ⟨-, -, herror, htranspose, -⟩ := tolerance_relation_law Mat.uneven hτ
  have hcorner := (herror _).mpr ⟨0, 2, hfirst, rfl⟩
  refine ⟨hτ, hcorner, ?_⟩
  rw [htranspose, hcorner]
  rfl

end InteriorPoint

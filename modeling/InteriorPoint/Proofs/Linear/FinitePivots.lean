import InteriorPoint.Proofs.Linear.Elimination
import InteriorPoint.Proofs.Scalar.Undefined

/-!
# Elimination and values that are not finite

An elimination makes a real number out of an infinity only where it divides by one, and it divides
by pivots only. So if all pivots are real numbers and none is zero, nothing but real numbers was
there to begin with: the entries to the lower right of a column are real before the column is
cleared if they are afterwards. The same holds of every property that results inherit from their
operands, and being defined is one of them as well (`Lu.of_pivots`).

An undefined entry may go unnoticed on its way, since no comparison with it succeeds and the scan
for a pivot passes it by, or starts there and stays. But once it is a pivot, it makes everything to
the lower right of it undefined, and with that all later pivots (`Lu.get_pivots_of_undefined`).
-/

namespace InteriorPoint

open Scalar

namespace Lu

/-! ## One column -/

section Column

variable {α : Type} [Scalar α] {n : ℕ}

/-- The scan for a pivot stays on or below the diagonal, and ends where it started or at an entry
that is larger than another one. -/
theorem scan_pivot_cases (A : Mat α n n) (i : Fin n) (rows : List (Fin n)) {best : Fin n}
    (hbest : i ≤ best) :
    ∃ p, rows.foldl (fun best r => if i < r ∧ Scalar.abs (Mat.entry A best i)
        < Scalar.abs (Mat.entry A r i) then r else best) best = p ∧ i ≤ p ∧
      (p = best ∨ ∃ b, Scalar.abs (Mat.entry A b i) < Scalar.abs (Mat.entry A p i)) := by
  induction rows generalizing best with
  | nil => exact ⟨best, rfl, hbest, Or.inl rfl⟩
  | cons r rows ih =>
    rw [List.foldl_cons]
    split_ifs with h
    · obtain ⟨p, hp, hip, rfl | hlarger⟩ := ih h.1.le
      · exact ⟨p, hp, hip, Or.inr ⟨best, h.2⟩⟩
      · exact ⟨p, hp, hip, Or.inr hlarger⟩
    · exact ih hbest

/-- **The pivot row** is the row of the column itself, or its entry is larger than another one. -/
theorem pivotRow_cases (A : Mat α n n) (i : Fin n) :
    i ≤ pivotRow A i ∧ (pivotRow A i = i ∨
      ∃ b, Scalar.abs (Mat.entry A b i) < Scalar.abs (Mat.entry A (pivotRow A i) i)) := by
  obtain ⟨p, hp, hip, hcases⟩ := scan_pivot_cases A i (List.finRange n) (le_refl i)
  have hpivot : pivotRow A i = p := by rw [pivotRow, Fin.foldl_eq_finRange_foldl, hp]
  rw [hpivot]
  exact ⟨hip, hcases⟩

/-- The rows above the diagonal entry of a column are left alone. -/
theorem entry_eliminate_of_lt (F : Lu α n) {i r : Fin n} (hr : r < i) (c : Fin n) :
    Mat.entry (F.eliminate i).packed r c = Mat.entry F.packed r c := by
  by_cases hbeq : (Mat.entry F.packed (pivotRow F.packed i) i == 0) = true
  · have hsame : F.eliminate i = F := if_pos hbeq
    rw [hsame]
  · obtain ⟨hip, -⟩ := pivotRow_cases F.packed i
    rw [eliminate_of_not_beq hbeq]
    dsimp only
    rw [entry_clearColumn, if_neg fun h => absurd h.1 hr.not_gt, Mat.entry_swapRows,
      if_neg hr.ne, if_neg (hr.trans_le hip).ne]

/-- So are they by all later columns. -/
theorem entry_after_of_lt (A : Mat α n n) {k l : ℕ} (hkl : k ≤ l) (hl : l ≤ n) {r : Fin n}
    (hr : r.val < k) (c : Fin n) :
    Mat.entry (after A l hl).packed r c = Mat.entry (after A k (hkl.trans hl)).packed r c := by
  induction l, hkl using Nat.le_induction with
  | base => rfl
  | succ l hkl ih =>
    rw [after, entry_eliminate_of_lt _ (show r.val < l from hr.trans_le hkl)]
    exact ih _

end Column

/-! ## The pivots -/

section Pivots

variable {α : Type} [Scalar α] {n : ℕ} {A : Mat α n n} {i : Fin n}

/-- A pivot is what stands on the diagonal right after its column. -/
theorem get_pivots (A : Mat α n n) (i : Fin n) :
    (factor A).pivots.get i = Mat.entry (after A (i + 1) i.isLt).packed i i := by
  have hdiagonal : (factor A).pivots.get i = Mat.entry (factor A).packed i i := Vec.get_ofFn _ i
  rw [hdiagonal]
  exact entry_after_of_lt A (Nat.succ_le_of_lt i.isLt) (Nat.le_refl n) (Nat.lt_succ_self i) i

/-- What stands to the lower right of a cleared column. -/
theorem entry_clearColumn_of_lt (Q : Mat α n n) {i r c : Fin n} (hr : i < r) (hc : i < c) :
    Mat.entry (clearColumn Q i) r c
      = -Mat.entry Q i c * (Mat.entry Q r i * (1 / Mat.entry Q i i)) + Mat.entry Q r c := by
  rw [entry_clearColumn, if_pos ⟨hr, hc.le⟩, if_neg hc.ne']

variable [UndefinedRules α]

/-- **A column** is passed over, in which case its diagonal entry and its pivot are zero; or a row
is exchanged into place and the rows below are cleared. -/
theorem column_cases (A : Mat α n n) (i : Fin n) :
    ((Mat.entry (after A i i.isLt.le).packed i i == 0) = true ∧
      ((factor A).pivots.get i == 0) = true) ∨
    ∃ p, i ≤ p ∧
      (after A (i + 1) i.isLt).packed
        = clearColumn (Mat.swapRows (after A i i.isLt.le).packed i p) i ∧
      (factor A).pivots.get i = Mat.entry (after A i i.isLt.le).packed p i := by
  rw [get_pivots]
  have hafter : after A (i + 1) i.isLt = (after A i i.isLt.le).eliminate i := rfl
  rw [hafter]
  set F := after A i i.isLt.le
  obtain ⟨hip, hpivot⟩ := pivotRow_cases F.packed i
  by_cases hbeq : (Mat.entry F.packed (pivotRow F.packed i) i == 0) = true
  · have hsame : F.eliminate i = F := if_pos hbeq
    have hdiagonal : (Mat.entry F.packed i i == 0) = true := by
      obtain heq | ⟨b, hb⟩ := hpivot
      · rwa [heq] at hbeq
      · exact absurd hb (UndefinedRules.not_abs_lt_of_beq_zero _ hbeq)
    exact Or.inl ⟨hdiagonal, by rwa [hsame]⟩
  · refine Or.inr ⟨pivotRow F.packed i, hip, ?_, ?_⟩
    · rw [eliminate_of_not_beq hbeq]
    · rw [eliminate_of_not_beq hbeq]
      dsimp only
      rw [entry_clearColumn, if_neg fun h => lt_irrefl i h.1, Mat.entry_swapRows, if_pos rfl]

/-- **After an undefined pivot** everything to the lower right of it is undefined. -/
theorem isNaN_entry_after (h : isNaN ((factor A).pivots.get i) = true) {r c : Fin n} (hr : i < r)
    (hc : i < c) : isNaN (Mat.entry (after A (i + 1) i.isLt).packed r c) = true := by
  obtain ⟨-, hzero⟩ | ⟨p, -, hcolumn, hpivot⟩ := column_cases A i
  · exact absurd hzero (Bool.eq_false_iff.mp (UndefinedRules.beq_zero_of_isNaN h))
  · have hdiagonal : isNaN (Mat.entry (Mat.swapRows (after A i i.isLt.le).packed i p) i i)
        = true := by
      rw [Mat.entry_swapRows, if_pos rfl, ← hpivot, h]
    have hinverse := UndefinedRules.isNaN_div (x := (1 : α)) (Or.inr hdiagonal)
    rw [hcolumn, entry_clearColumn_of_lt _ hr hc]
    refine UndefinedRules.isNaN_add (Or.inl (UndefinedRules.isNaN_mul (Or.inr ?_)))
    exact UndefinedRules.isNaN_mul (Or.inr hinverse)

/-- **So the next pivot is undefined as well.** -/
theorem get_pivots_succ_of_undefined (h : isNaN ((factor A).pivots.get i) = true)
    (hi : i.val + 1 < n) : isNaN ((factor A).pivots.get ⟨i + 1, hi⟩) = true := by
  have hlt : i < ⟨i + 1, hi⟩ := Nat.lt_succ_self i
  obtain ⟨hzero, -⟩ | ⟨p, hp, -, hpivot⟩ := column_cases A ⟨i + 1, hi⟩
  · have hundefined := isNaN_entry_after h hlt hlt
    exact absurd hzero (Bool.eq_false_iff.mp (UndefinedRules.beq_zero_of_isNaN hundefined))
  · rw [hpivot]
    exact isNaN_entry_after h (hlt.trans_le hp) hlt

/-- **After an undefined pivot** all pivots are undefined. -/
theorem get_pivots_of_undefined (h : isNaN ((factor A).pivots.get i) = true) {j : ℕ} (hij : i ≤ j)
    (hj : j < n) : isNaN ((factor A).pivots.get ⟨j, hj⟩) = true := by
  induction j, hij using Nat.le_induction with
  | base => exact h
  | succ j hij ih => exact get_pivots_succ_of_undefined (ih (Nat.lt_of_succ_lt hj)) hj

/-! ## What the pivots say of the matrix -/

variable {P : α → Prop}

omit [Scalar α] [UndefinedRules α] in
/-- What holds of the entries from some row and column on after an exchange of these rows holds of
them before. -/
theorem of_swapRows {M : Mat α n n} {i p : Fin n} (hp : i ≤ p)
    (h : ∀ r c, i ≤ r → i ≤ c → P (Mat.entry (Mat.swapRows M i p) r c)) (r c : Fin n)
    (hr : i ≤ r) (hc : i ≤ c) : P (Mat.entry M r c) := by
  simp only [Mat.entry_swapRows] at h
  by_cases hri : r = i
  · have hswapped := h p c hp hc
    subst hri
    by_cases hpi : p = r
    · rwa [if_pos hpi, hpi] at hswapped
    · rwa [if_neg hpi, if_pos rfl] at hswapped
  · by_cases hrp : r = p
    · have hswapped := h i c le_rfl hc
      rwa [if_pos rfl, ← hrp] at hswapped
    · have hswapped := h r c hr hc
      rwa [if_neg hri, if_neg hrp] at hswapped

omit [UndefinedRules α] in
/-- **A column has an inherited property** if its pivot has it and if what stands to the lower
right of it has it after the column has been cleared. -/
theorem of_clearColumn (hP : Inherited P) {Q : Mat α n n} (hpivot : P (Mat.entry Q i i))
    (h : ∀ r c, i < r → i < c → P (Mat.entry (clearColumn Q i) r c)) (r c : Fin n)
    (hr : i ≤ r) (hc : i ≤ c) : P (Mat.entry Q r c) := by
  have hterms : ∀ r c, i < r → i < c →
      P (Mat.entry Q i c) ∧ P (Mat.entry Q r i) ∧ P (Mat.entry Q r c) := by
    intro r c hr hc
    have hentry := h r c hr hc
    rw [entry_clearColumn_of_lt Q hr hc] at hentry
    obtain ⟨hproduct, hkept⟩ := hP.of_add hentry
    obtain ⟨hrow, hmultiplier⟩ := hP.of_mul hproduct
    exact ⟨hP.of_neg hrow, (hP.of_mul hmultiplier).1, hkept⟩
  rcases eq_or_lt_of_le hr with rfl | hr
  · rcases eq_or_lt_of_le hc with rfl | hc
    · exact hpivot
    · exact (hterms c c hc hc).1
  · rcases eq_or_lt_of_le hc with rfl | hc
    · exact (hterms r r hr hr).2.1
    · exact (hterms r c hr hc).2.2

/-- **A matrix has an inherited property** in all its entries if its pivots have it and none of
them is zero. -/
theorem of_pivots (hP : Inherited P)
    (h : ∀ i, P ((factor A).pivots.get i) ∧ ((factor A).pivots.get i == 0) = false)
    (r c : Fin n) : P (Mat.entry A r c) := by
  have hafter : ∀ (k : ℕ) (hk : k ≤ n) (r c : Fin n), k ≤ r.val → k ≤ c.val →
      P (Mat.entry (after A k hk).packed r c) := by
    intro k hk
    induction hk using Nat.decreasingInduction with
    | self => exact fun r c hr => absurd r.isLt hr.not_gt
    | of_succ k hk ih =>
      obtain ⟨hproperty, hne⟩ := h ⟨k, hk⟩
      obtain ⟨-, hzero⟩ | ⟨p, hp, hcolumn, hpivot⟩ := column_cases A ⟨k, hk⟩
      · exact absurd hzero (Bool.eq_false_iff.mp hne)
      · refine of_swapRows hp (of_clearColumn hP ?_ fun r c hr hc => ?_)
        · rw [Mat.entry_swapRows, if_pos rfl, ← hpivot]
          exact hproperty
        · rw [← hcolumn]
          exact ih r c hr hc
  exact hafter 0 (Nat.zero_le n) r c (Nat.zero_le _) (Nat.zero_le _)

end Pivots

end Lu

end InteriorPoint

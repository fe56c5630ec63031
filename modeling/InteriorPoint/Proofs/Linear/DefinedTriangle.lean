import InteriorPoint.Proofs.Linear.SquareRoot
import InteriorPoint.Proofs.Scalar.Undefined

/-!
# A matrix with a square-root factor has a defined triangle

The factorization compares each pivot with zero, so a pivot that it accepts is defined. A pivot is
what remains of a diagonal entry when the squares of the factor in its row are taken off, so the
whole row of the factor is defined with it; and an entry of the factor is a quotient of what remains
of the given entry. So row by row, the lower triangle of the matrix was defined
(`Cholesky.defined_of_factor?`), and an undefined entry there makes the factorization fail, however
the entries above the diagonal may be.
-/

namespace InteriorPoint

open Scalar

namespace Cholesky

variable {α : Type} [Scalar α] {n : ℕ}

/-! ## One column -/

/-- A column that is factored has an accepted pivot. -/
theorem column?_eq_some {L L' : Mat α n n} {k : Fin n} (h : column? L k = some L') :
    0 ≤ reduced L k k ∧ L' = factorColumn L k := by
  unfold column? at h
  dsimp only at h
  split_ifs at h with hrefuse
  rw [not_or, not_not] at hrefuse
  exact ⟨hrefuse.2, (Option.some.inj h).symm⟩

/-- The factored column below its diagonal entry. -/
theorem entry_factorColumn_of_lt (L : Mat α n n) {k r : Fin n} (hr : k < r) :
    Mat.entry (factorColumn L k) r k = reduced L k r / Scalar.sqrt (reduced L k k) := by
  unfold factorColumn
  rw [Mat.entry_of, if_pos rfl, if_neg hr.not_gt, if_neg hr.ne']

variable {P : α → Prop}

/-- A running sum of products with an inherited property was started from a value with the property,
and so are the factors of all its terms. -/
theorem of_foldl_products (hP : Inherited P) {κ : Type} (a b : κ → α) {l : List κ} {m : α}
    (h : P (l.foldl (fun acc k => -a k * b k + acc) m)) : P m ∧ ∀ k ∈ l, P (a k) ∧ P (b k) := by
  induction l generalizing m with
  | nil => exact ⟨h, fun k hk => absurd hk List.not_mem_nil⟩
  | cons k l ih =>
    obtain ⟨hstep, hrest⟩ := ih h
    obtain ⟨hproduct, hm⟩ := hP.of_add hstep
    obtain ⟨ha, hb⟩ := hP.of_mul hproduct
    exact ⟨hm, List.forall_mem_cons.mpr ⟨⟨hP.of_neg ha, hb⟩, hrest⟩⟩

/-- **What remains of an entry** inherits from the entry and from the factor in the row of the
pivot. -/
theorem of_reduced (hP : Inherited P) {L : Mat α n n} {j r : Fin n} (h : P (reduced L j r)) :
    P (Mat.entry L r j) ∧ ∀ c, c < j → P (Mat.entry L j c) := by
  unfold reduced at h
  rw [Fin.foldl_eq_finRange_foldl] at h
  obtain ⟨hentry, hfactors⟩ := of_foldl_products hP (fun k => Mat.entry L j (before j k))
    (fun k => Mat.entry L r (before j k)) h
  refine ⟨hentry, fun c hc => ?_⟩
  exact (hfactors ⟨c, hc⟩ (List.mem_finRange _)).1

/-! ## All columns -/

/-- **What is known after `k` columns**: an entry of the lower triangle was defined in the given
matrix if it is defined in the stored one, and the first `k` rows were. -/
structure Known (A L : Mat α n n) (k : ℕ) : Prop where
  /-- What is stored as a defined value was one. -/
  stored : ∀ r c, c ≤ r → isNaN (Mat.entry L r c) = false → isNaN (Mat.entry A r c) = false
  /-- The rows of the factored columns. -/
  rows : ∀ r c, c ≤ r → r.val < k → isNaN (Mat.entry A r c) = false

variable [UndefinedRules α]

theorem Known.succ {A L : Mat α n n} {k : Fin n} (hL : Known A L k) (hpivot : 0 ≤ reduced L k k) :
    Known A (factorColumn L k) (k + 1) := by
  have hdefined := UndefinedRules.isNaN_of_le hpivot
  obtain ⟨hdiagonal, hfactors⟩ := of_reduced UndefinedRules.inherited hdefined
  have hrow : ∀ c, c ≤ k → isNaN (Mat.entry A k c) = false := by
    intro c hc
    rcases eq_or_lt_of_le hc with rfl | hlt
    · exact hL.stored c c le_rfl hdiagonal
    · exact hL.stored k c hc (hfactors c hlt)
  constructor
  · intro r c hc hstored
    by_cases hck : c = k
    · subst hck
      rcases eq_or_lt_of_le hc with rfl | hlt
      · exact hrow c le_rfl
      · rw [entry_factorColumn_of_lt L hlt] at hstored
        have hreduced := UndefinedRules.inherited.of_div hstored
        exact hL.stored r c hc (of_reduced UndefinedRules.inherited hreduced).1
    · rw [entry_factorColumn_of_ne L hck] at hstored
      exact hL.stored r c hc hstored
  · intro r c hc hr
    rcases Nat.lt_succ_iff_lt_or_eq.mp hr with hlt | heq
    · exact hL.rows r c hc hlt
    · obtain rfl := Fin.ext heq
      exact hrow c hc

/-- The factorization of some columns leaves that much known. -/
theorem known_of_after? {A L : Mat α n n} {k : ℕ} {hk : k ≤ n} (h : after? A k hk = some L) :
    Known A L k := by
  induction k generalizing L with
  | zero =>
    obtain rfl := Option.some.inj h
    exact ⟨fun r c _ h => h, fun r c _ hr => absurd hr (Nat.not_lt_zero _)⟩
  | succ k ih =>
    obtain ⟨L₀, hL₀, hL⟩ := Option.bind_eq_some_iff.mp h
    obtain ⟨hpivot, rfl⟩ := column?_eq_some hL
    exact (ih hL₀).succ hpivot

/-- **A matrix with a factor has a defined lower triangle.** -/
theorem defined_of_factor? {A : Mat α n n} {F : Cholesky α n} (h : factor? A = some F)
    {r c : Fin n} (hc : c ≤ r) : isNaN (Mat.entry A r c) = false := by
  obtain ⟨L, hL, -⟩ := Option.map_eq_some_iff.mp h
  exact (known_of_after? hL).rows r c hc r.isLt

end Cholesky

end InteriorPoint

import InteriorPoint.Proofs.Function.QuadraticFormulas
import InteriorPoint.Proofs.Scalar.DoubleRange

/-!
# Infinite entries under a tolerance

Two entries are apart if their distance exceeds a bound that grows with them. If one of them is
infinite the bound is infinite as well, and no distance exceeds it. What is left of the test is that
the distance has to be defined. So an infinite entry passes against every entry but an undefined one
and itself: a matrix that is symmetric with infinite entries is refused, and one in which an
infinite entry faces a finite one is accepted (`infinite_discrepancy_law`,
`infinite_discrepancy_accepted`).

Between finite entries a distance is infinite only by overflow. Under a tolerance below one their
bound does not overflow, and there the test does what it is for: it accepts no infinite distance.
-/

namespace InteriorPoint

open Scalar

namespace Dense

variable {α : Type} [Scalar α] {τ x y : α} {n : ℕ}

/-- **The bound** for the distance of two entries: the tolerance times their scale. -/
def bound (τ x y : α) : α := τ * larger (larger (abs x) (abs y)) 1

/-- **Two entries pass** for the same if their distance is defined and, where the bound for it is
finite, finite and within the bound. -/
def Passes (τ x y : α) : Prop :=
  isNaN (x - y) = false ∧
    (isFinite (bound τ x y) = true → isFinite (x - y) = true ∧ abs (x - y) ≤ bound τ x y)

variable [OverflowRules α]

/-! ## The bound -/

/-- The absolute values of two entries are at most their scale. -/
theorem abs_le_scale (hx : isNaN x = false) (hy : isNaN y = false) :
    abs x ≤ larger (larger (abs x) (abs y)) 1 ∧ abs y ≤ larger (larger (abs x) (abs y)) 1 := by
  have hx := OrderRules.isNaN_abs_of_defined hx
  have hy := OrderRules.isNaN_abs_of_defined hy
  have hboth := BoundRules.isNaN_larger hx hy
  have hscale := BoundRules.isNaN_larger hboth BoundRules.isNaN_one
  rw [← BoundRules.larger_le_iff hx hy]
  exact ((BoundRules.larger_le_iff hboth BoundRules.isNaN_one).mp (OrderRules.le_refl hscale)).1

/-- A bound is at least zero. -/
theorem zero_le_bound (hτ : isFinite τ = true) (hpos : 0 < τ) (hx : isNaN x = false)
    (hy : isNaN y = false) : 0 ≤ bound τ x y :=
  OrderRules.zero_le_mul hτ (BoundRules.lt_iff.mp hpos).2.2
    (OrderRules.le_trans (OrderRules.zero_le_abs hx) (abs_le_scale hx hy).1)

/-- **A finite bound** has finite entries. -/
theorem isFinite_of_bound (hx : isNaN x = false) (hy : isNaN y = false)
    (h : isFinite (bound τ x y) = true) : isFinite x = true ∧ isFinite y = true := by
  have hscale := (OverflowRules.isFinite_of_mul h).2
  obtain ⟨hlex, hley⟩ := abs_le_scale hx hy
  exact ⟨OverflowRules.isFinite_of_abs_le hx hlex hscale,
    OverflowRules.isFinite_of_abs_le hy hley hscale⟩

/-- Finite entries have a finite bound under a tolerance below one. -/
theorem isFinite_bound (hτ : isFinite τ = true) (hpos : 0 < τ) (hlt : τ < 1)
    (hx : isFinite x = true) (hy : isFinite y = true) : isFinite (bound τ x y) = true := by
  refine OverflowRules.isFinite_mul hτ hpos hlt ?_
  refine OverflowRules.isFinite_larger (OverflowRules.isFinite_larger ?_ ?_)
    OverflowRules.isFinite_one
  · exact OverflowRules.isFinite_abs hx
  · exact OverflowRules.isFinite_abs hy

/-! ## What passes -/

/-- Entries with a defined distance are defined. -/
theorem defined_of_isNaN_sub (h : isNaN (x - y) = false) : isNaN x = false ∧ isNaN y = false :=
  UndefinedRules.inherited.of_sub h

/-- **Two entries are not apart** exactly if they pass. -/
theorem apart_eq_false_iff_passes (hτ : isFinite τ = true) (hpos : 0 < τ) :
    apart τ x y = false ↔ Passes τ x y := by
  have hapart : apart τ x y = (isNaN (abs (x - y)) || decide (bound τ x y < abs (x - y))) := rfl
  unfold Passes
  by_cases h : isNaN (x - y) = true
  · rw [hapart, UndefinedRules.isNaN_abs h, Bool.true_or, h]
    exact iff_of_false nofun fun h => nomatch h.1
  · have h : isNaN (x - y) = false := Bool.eq_false_of_not_eq_true h
    obtain ⟨hx, hy⟩ := defined_of_isNaN_sub h
    have habs := OrderRules.isNaN_abs_of_defined h
    have hnonneg := zero_le_bound hτ hpos hx hy
    rw [hapart, habs, Bool.false_or, decide_eq_false_iff_not, BoundRules.lt_iff]
    simp only [UndefinedRules.isNaN_of_le hnonneg, habs, h, true_and, not_not]
    refine ⟨fun hle hfinite => ⟨?_, hle⟩, fun hle => ?_⟩
    · exact OverflowRules.isFinite_of_abs_le h hle hfinite
    · by_cases hfinite : isFinite (bound τ x y) = true
      · exact (hle hfinite).2
      · exact OverflowRules.le_of_not_isFinite habs hnonneg (Bool.eq_false_of_not_eq_true hfinite)

/-- **What passes under a tolerance below one** has a finite distance exactly if both entries are
finite. -/
theorem Passes.isFinite_sub_iff (hτ : isFinite τ = true) (hpos : 0 < τ) (hlt : τ < 1)
    (h : Passes τ x y) : isFinite (x - y) = true ↔ isFinite x = true ∧ isFinite y = true :=
  ⟨BoundRules.isFinite_of_sub, fun hxy => (h.2 (isFinite_bound hτ hpos hlt hxy.1 hxy.2)).1⟩

/-- **An infinite entry passes** unless it faces itself. -/
theorem passes_iff_of_infinite (hx : isNaN x = false) (hy : isNaN y = false)
    (h : isFinite x = false ∨ isFinite y = false) :
    Passes τ x y ↔ ¬ (isFinite x = false ∧ (x == y) = true) := by
  have hbound : ¬ isFinite (bound τ x y) = true := by
    intro hfinite
    obtain ⟨hx', hy'⟩ := isFinite_of_bound hx hy hfinite
    simp [hx', hy'] at h
  rw [← OverflowRules.isNaN_sub_iff hx hy, Bool.not_eq_true]
  exact and_iff_left fun hfinite => absurd hfinite hbound

end Dense

/-- A quadratic term is accepted, as it is, exactly if no entry is apart from its transposed one. -/
theorem Quadratic.exists_ofDense_iff {α : Type} [Scalar α] {b : Array α} {c : α}
    {A : Mat α b.size b.size} : (∃ f, ofDense (.ofMat A) b c = .ok f ∧ f.a = A) ↔
      0 < b.size ∧ ∀ i j, i < j →
        Dense.apart Dense.symmetryTolerance (Mat.entry A i j) (Mat.entry A j i) = false := by
  rw [← Dense.firstAsymmetry?_eq_none_iff]
  constructor
  · rintro ⟨f, -, rfl⟩
    exact ⟨f.dim_pos, f.symmetric⟩
  · exact fun h => ⟨_, ofDense_ofMat A c h.1 h.2, rfl⟩

open InteriorPoint.Dense

/-- **The law of infinite distances**, over scalars that overflow as double-precision numbers do.

Under a finite positive tolerance both checks, and the construction of a quadratic function at its
own tolerance, accept exactly the matrices of which every pair of entries that is compared has a
defined distance which is finite and within the bound wherever the bound is finite. Below a
tolerance of one this is a finite distance exactly if both entries are finite. But a pair with an
infinite entry passes, whatever it faces, unless it is one and the same infinity. -/
theorem infinite_discrepancy_law {α : Type} [Scalar α] [OverflowRules α] {τ : α}
    (hτ : isFinite τ = true) (hpos : 0 < τ) :
    (∀ {n : ℕ} (M : Mat α n n), (ofMat M).symmetric τ = .ok M ↔
      ∀ i j, i < j → Passes τ (Mat.entry M i j) (Mat.entry M j i)) ∧
    (∀ a t : Dense α, checkTranspose a t τ = .ok () ↔ ∀ (i : Fin a.rows) (j : Fin a.cols),
      ∃ y, t.get? j i = some y ∧ Passes τ (Mat.entry a.entries i j) y) ∧
    (τ = symmetryTolerance → ∀ (b : Array α) (c : α) (A : Mat α b.size b.size),
      (∃ f, Quadratic.ofDense (.ofMat A) b c = .ok f ∧ f.a = A) ↔
        0 < b.size ∧ ∀ i j, i < j → Passes τ (Mat.entry A i j) (Mat.entry A j i)) ∧
    (τ < 1 → ∀ x y, Passes τ x y →
      (isFinite (x - y) = true ↔ isFinite x = true ∧ isFinite y = true)) ∧
    ∀ x y : α, isNaN x = false → isNaN y = false → isFinite x = false ∨ isFinite y = false →
      (Passes τ x y ↔ ¬ (isFinite x = false ∧ (x == y) = true)) := by
  have hpasses (x y : α) : apart τ x y = false ↔ Passes τ x y := apart_eq_false_iff_passes hτ hpos
  refine ⟨fun M => ?_, fun a t => ?_, ?_, fun hlt x y h => h.isFinite_sub_iff hτ hpos hlt,
    fun x y hx hy h => passes_iff_of_infinite hx hy h⟩
  · simp only [symmetric_eq_ok_iff, hpasses]
  · simp only [checkTranspose_eq_ok_iff, hpasses]
  · rintro rfl b c A
    simp only [Quadratic.exists_ofDense_iff, hpasses]

/-- A matrix of doubles with an infinite entry on the diagonal and two opposite ones beside it. -/
def Mat.opposite : Mat Float 2 2 := #v[#v[infinity, infinity], #v[-infinity, 2]]

/-- The law for opposite infinities, which pass for symmetric at the tolerance of quadratic
functions. The one on the diagonal faces itself if the matrix is to be its own transpose, and is
refused. -/
theorem infinite_discrepancy_law_opposite :
    isFinite (symmetryTolerance : Float) = true ∧ (0 : Float) < symmetryTolerance ∧
    (symmetryTolerance : Float) < 1 ∧
    (ofMat Mat.opposite).symmetric symmetryTolerance = .ok Mat.opposite ∧
    checkTranspose (ofMat Mat.opposite) (ofMat Mat.opposite) symmetryTolerance ≠ .ok () := by
  have hfinite : isFinite (symmetryTolerance : Float) = true := by decide +kernel
  have hpos : (0 : Float) < symmetryTolerance := by decide +kernel
  have hlt : (symmetryTolerance : Float) < 1 := by decide +kernel
  obtain ⟨hsymmetric, htranspose, -, -, hinfinite⟩ := infinite_discrepancy_law hfinite hpos
  refine ⟨hfinite, hpos, hlt, (hsymmetric _).mpr fun i j hij => ?_, fun h => ?_⟩
  · obtain ⟨rfl, rfl⟩ : i = 0 ∧ j = 1 := by omega
    have hne : ((infinity : Float) == -infinity) = false := by decide +kernel
    exact (hinfinite infinity (-infinity) rfl rfl (Or.inl rfl)).mpr fun h =>
      Bool.false_ne_true (hne.symm.trans h.2)
  · obtain ⟨y, hy, hcorner⟩ := (htranspose _ _).mp h (0 : Fin 2) (0 : Fin 2)
    obtain rfl : infinity = y := Option.some.inj hy
    have hself : ((infinity : Float) == infinity) = true := by decide +kernel
    exact (hinfinite infinity infinity rfl rfl (Or.inl rfl)).mp hcorner ⟨rfl, hself⟩

/-- A matrix of doubles with an infinite entry that faces a finite one. -/
def Mat.oneSided : Mat Float 2 2 := #v[#v[0, infinity], #v[1, 0]]

/-- **An infinite entry that faces a finite one** is accepted by both checks and in a quadratic
function. -/
theorem infinite_discrepancy_accepted :
    isFinite (symmetryTolerance : Float) = true ∧ (0 : Float) < symmetryTolerance ∧
    (ofMat Mat.oneSided).symmetric symmetryTolerance = .ok Mat.oneSided ∧
    checkTranspose (ofMat Mat.oneSided) (ofMat Mat.oneSided) symmetryTolerance = .ok () ∧
    (∃ f, Quadratic.ofDense (.ofMat Mat.oneSided) #[0, 0] 0 = .ok f ∧ f.a = Mat.oneSided) ∧
    isFinite (Mat.entry Mat.oneSided 0 1 - Mat.entry Mat.oneSided 1 0) = false := by
  have hsymmetric : ∀ i j, i < j → apart symmetryTolerance (Mat.entry Mat.oneSided i j)
      (Mat.entry Mat.oneSided j i) = false := by decide +kernel
  have htranspose : ∀ i j, apart symmetryTolerance (Mat.entry Mat.oneSided i j)
      (Mat.entry Mat.oneSided j i) = false := by decide +kernel
  exact ⟨by decide +kernel, by decide +kernel, symmetric_eq_ok_iff.mpr hsymmetric,
    checkTranspose_ofMat_eq_ok_iff.mpr htranspose,
    Quadratic.exists_ofDense_iff.mpr ⟨two_pos, hsymmetric⟩, by decide +kernel⟩

end InteriorPoint

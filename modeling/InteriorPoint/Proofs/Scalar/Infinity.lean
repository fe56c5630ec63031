import InteriorPoint.Proofs.Scalar.Extended

/-!
# Rules for infinities and undefined values

What floating-point arithmetic says of the values that are not finite, as far as barriers read it.
Nothing is said of finite results, so the rules hold with rounding as well as without. They hold of
the real numbers with infinities and an undefined value.
-/

namespace InteriorPoint

open Scalar

/-- **Scalars with infinities and undefined values** that go by the floating-point rules. -/
class InfinityRules (α : Type) [Scalar α] : Prop where
  /-- Infinity is defined. -/
  isNaN_infinity : isNaN (infinity : α) = false
  /-- What is defined is negative or at least zero. -/
  isNaN_or_lt_or_le (v : α) : isNaN v = true ∨ v < 0 ∨ 0 ≤ v
  /-- Infinity exceeds everything finite. -/
  lt_infinity {v : α} : isFinite v = true → v < infinity
  /-- Nothing stands before an undefined value. -/
  not_lt_of_isNaN (v : α) {w : α} : isNaN w = true → ¬ v < w
  /-- A product with an undefined factor is undefined. -/
  isNaN_mul (t : α) {v : α} : isNaN v = true → isNaN (t * v) = true
  /-- What is taken off an undefined value leaves it undefined. -/
  isNaN_sub {v : α} (w : α) : isNaN v = true → isNaN (v - w) = true
  /-- A positive multiple of infinity is infinity. -/
  mul_infinity {t : α} : isFinite t = true → 0 < t → t * infinity = infinity
  /-- Zero times infinity is undefined. -/
  isNaN_mul_infinity {t : α} : isFinite t = true → ¬ t < 0 → ¬ 0 < t → isNaN (t * infinity) = true
  /-- What is finite can be taken off infinity. -/
  infinity_sub {v : α} : isFinite v = true → infinity - v = infinity
  /-- A difference of infinities is undefined. -/
  isNaN_infinity_sub : isNaN (infinity - infinity : α) = true
  /-- The logarithm of the opposite of a finite negative number is finite. -/
  isFinite_log_neg {u : α} : isFinite u = true → u < 0 → isFinite (log (-u)) = true
  /-- The logarithm of the opposite of a negative number that is not finite is infinity. -/
  log_neg {u : α} : isFinite u = false → u < 0 → log (-u) = infinity

/-- **Scalars with a sign**: a value is negative exactly if it is neither undefined nor at least
zero. -/
class SignRules (α : Type) [Scalar α] : Prop where
  /-- What is defined is negative or at least zero. -/
  isNaN_or_lt_or_le (v : α) : isNaN v = true ∨ v < 0 ∨ 0 ≤ v
  /-- What is undefined is not negative. -/
  not_lt_of_isNaN {v : α} : isNaN v = true → ¬ v < 0
  /-- What is at least zero is not negative. -/
  not_lt_of_le {v : α} : 0 ≤ v → ¬ v < 0

namespace Extended

/-- The real numbers with infinities and an undefined value have a sign. -/
instance : SignRules Extended where
  isNaN_or_lt_or_le v := by
    rcases v with x | (_ | _) | _
    · exact Or.inr (lt_or_ge x 0)
    · exact Or.inr (Or.inr rfl)
    · exact Or.inr (Or.inl rfl)
    · exact Or.inl rfl
  not_lt_of_isNaN {v} h := by
    rcases v with x | s | _
    · exact nomatch h
    · exact nomatch h
    · exact id
  not_lt_of_le {v} h := by
    rcases v with x | (_ | _) | _
    · have hx : (0 : ℝ) ≤ x := h
      exact hx.not_gt
    · exact Bool.false_ne_true
    · exact nomatch (h : true = false)
    · exact h.elim

/-- The real numbers with infinities and an undefined value go by the rules. -/
instance : InfinityRules Extended where
  isNaN_infinity := rfl
  isNaN_or_lt_or_le := SignRules.isNaN_or_lt_or_le
  lt_infinity {v} h := by
    cases v with
    | real x => rfl
    | infinite s => exact nomatch h
    | undefined => exact nomatch h
  not_lt_of_isNaN v {w} h := by
    cases w with
    | real x => exact nomatch h
    | infinite s => exact nomatch h
    | undefined => cases v <;> exact id
  isNaN_mul t {v} h := by
    cases v with
    | real x => exact nomatch h
    | infinite s => exact nomatch h
    | undefined => cases t <;> rfl
  isNaN_sub {v} w h := by
    cases v with
    | real x => exact nomatch h
    | infinite s => exact nomatch h
    | undefined => cases w <;> rfl
  mul_infinity {t} hfinite hpos := by
    obtain ⟨x, rfl⟩ := Exact.isFinite_iff.mp hfinite
    have hx : 0 < x := hpos
    show scaleInfinite false x = infinite false
    rw [scaleInfinite, if_neg hx.ne', decide_eq_false hx.not_gt]
    rfl
  isNaN_mul_infinity {t} hfinite hneg hpos := by
    obtain ⟨x, rfl⟩ := Exact.isFinite_iff.mp hfinite
    have hx : x = 0 := le_antisymm (not_lt.mp hpos) (not_lt.mp hneg)
    show Extended.isNaN (scaleInfinite false x) = true
    rw [scaleInfinite, if_pos hx]
    rfl
  infinity_sub {v} h := by
    obtain ⟨x, rfl⟩ := Exact.isFinite_iff.mp h
    rfl
  isNaN_infinity_sub := rfl
  isFinite_log_neg {u} hfinite hneg := by
    obtain ⟨x, rfl⟩ := Exact.isFinite_iff.mp hfinite
    have hx : 0 < -x := neg_pos.mpr hneg
    exact Exact.isFinite_iff.mpr ⟨_, Exact.log_real hx⟩
  log_neg {u} hfinite hneg := by
    cases u with
    | real x => exact nomatch hfinite
    | infinite s =>
      obtain rfl : s = true := hneg
      rfl
    | undefined => exact hneg.elim

end Extended

end InteriorPoint

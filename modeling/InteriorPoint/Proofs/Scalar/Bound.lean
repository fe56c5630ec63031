import InteriorPoint.Proofs.Scalar.Undefined

/-!
# Bounds on defined values

The larger of two scalars passes an undefined one over. Taken over defined values only it is what it
is called: within a bound exactly if both are, so that the largest of a list is within it exactly if
every one of the list is (`foldl_larger_le_iff`), in whichever order they stand.

A finite bound also keeps infinity out. What the rules say of infinity is what a relative error
needs of it: the absolute value of what is not finite is infinite or undefined, and so is a quotient
of infinity by something that is at least one. Nothing is said of rounding.
-/

namespace InteriorPoint

open Scalar

/-- **Scalars with an infinity that no finite bound admits**, and whose defined values are in
order. -/
class BoundRules (α : Type) [Scalar α] : Prop extends OrderRules α where
  /-- Zero is defined. -/
  isNaN_zero : isNaN (0 : α) = false
  /-- One is defined. -/
  isNaN_one : isNaN (1 : α) = false
  /-- Infinity is defined. -/
  isNaN_infinity : isNaN (infinity : α) = false
  /-- A value stands before another one if both are defined and it is not at least as large. -/
  lt_iff {x y : α} : x < y ↔ isNaN x = false ∧ isNaN y = false ∧ ¬ y ≤ x
  /-- Infinity is within no finite bound. -/
  not_infinity_le {t : α} : isFinite t = true → ¬ infinity ≤ t
  /-- A finite difference has finite terms. -/
  isFinite_of_sub {x y : α} : isFinite (x - y) = true → isFinite x = true ∧ isFinite y = true
  /-- The absolute value of what is defined and not finite is infinity. -/
  abs_eq_infinity {x : α} : isNaN x = false → isFinite x = false → abs x = infinity
  /-- A quotient of infinity by something that is at least one is infinity, unless undefined. -/
  infinity_div {s : α} : 1 ≤ s → isNaN (infinity / s) = false → infinity / s = infinity

namespace BoundRules

variable {α : Type} [Scalar α] {x y t : α}

/-- The larger of two values is one of them. -/
theorem of_larger (P : α → Prop) (hx : P x) (hy : P y) : P (larger x y) := by
  unfold larger
  split_ifs
  · exact hx
  · exact hy

/-- The larger of two defined values is defined. -/
theorem isNaN_larger (hx : isNaN x = false) (hy : isNaN y = false) :
    isNaN (larger x y) = false :=
  of_larger (fun v => isNaN v = false) hx hy

variable [BoundRules α]

/-- **The larger of two defined values** is within a bound exactly if both are. -/
theorem larger_le_iff (hx : isNaN x = false) (hy : isNaN y = false) :
    larger x y ≤ t ↔ x ≤ t ∧ y ≤ t := by
  unfold larger
  by_cases h : x ≤ y
  · have hnot : ¬ (isNaN y = true ∨ y < x) := by simp [hy, lt_iff, h]
    rw [if_neg hnot]
    exact ⟨fun hyt => ⟨OrderRules.le_trans h hyt, hyt⟩, And.right⟩
  · rw [if_pos (Or.inr (lt_iff.mpr ⟨hy, hx, h⟩))]
    have hyx : y ≤ x := OrderRules.le_of_not_le hx hy h
    exact ⟨fun hxt => ⟨hxt, OrderRules.le_trans hyx hxt⟩, And.left⟩

/-- **The largest of defined values** is within a bound exactly if all of them are. -/
theorem foldl_larger_le_iff {l : List α} (hx : isNaN x = false) (hl : ∀ v ∈ l, isNaN v = false) :
    l.foldl larger x ≤ t ↔ x ≤ t ∧ ∀ v ∈ l, v ≤ t := by
  induction l generalizing x with
  | nil => simp
  | cons v l ih =>
    obtain ⟨hv, hl⟩ := List.forall_mem_cons.mp hl
    rw [List.foldl_cons, ih (isNaN_larger hx hv) hl, larger_le_iff hx hv, List.forall_mem_cons,
      and_assoc]

/-- What is replaced by one unless it is larger is at least one. -/
theorem one_le_larger_one (x : α) : 1 ≤ larger x 1 := by
  unfold larger
  by_cases h : 1 < x
  · rw [if_pos (Or.inr h)]
    obtain ⟨hone, hx, hle⟩ := lt_iff.mp h
    exact OrderRules.le_of_not_le hx hone hle
  · have hnot : ¬ (isNaN (1 : α) = true ∨ 1 < x) := by simp [isNaN_one, h]
    rw [if_neg hnot]
    exact OrderRules.le_refl isNaN_one

end BoundRules

namespace Extended

/-- The real numbers with infinities and an undefined value go by the rules. -/
instance : BoundRules Extended where
  isNaN_zero := rfl
  isNaN_one := rfl
  isNaN_infinity := rfl
  lt_iff {x y} := by
    show Extended.lt x y ↔ Extended.isNaN x = false ∧ Extended.isNaN y = false ∧ ¬ Extended.le y x
    cases x <;> cases y <;> simp [Extended.lt, Extended.le, Extended.isNaN, and_comm]
  not_infinity_le {t} ht h := by
    rw [infinity_le h] at ht
    exact nomatch ht
  isFinite_of_sub := isFinite_sub.mp
  abs_eq_infinity {x} hx hfinite := by
    cases x with
    | real a => exact nomatch hfinite
    | infinite s => rfl
    | undefined => exact nomatch hx
  infinity_div {s} hs h := by
    cases s with
    | real a =>
      have ha : (1 : ℝ) ≤ a := hs
      show infinite (false ^^ decide (a < 0)) = infinite false
      rw [decide_eq_false (zero_le_one.trans ha).not_gt]
      rfl
    | infinite s => exact nomatch h
    | undefined => exact nomatch h

end Extended

end InteriorPoint

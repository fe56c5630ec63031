import InteriorPoint.Proofs.Scalar.Bound

/-!
# Scalars that overflow

A bound that is computed can be infinite. Then it is no bound any more: every defined value is
within it, and so is infinity itself. The rules below say when this happens, with rounding or
without. A product is infinite if a factor is, and a multiple by less than one is finite if the
multiplied value is. A difference of defined values is undefined only where an infinity is taken off
itself.

They hold of the real numbers with infinities and an undefined value, where nothing finite
overflows, and of floating-point numbers.
-/

namespace InteriorPoint

open Scalar

/-- **Scalars whose infinity is the end of the order**, which results reach when they overflow. -/
class OverflowRules (α : Type) [Scalar α] : Prop extends BoundRules α where
  /-- One is finite. -/
  isFinite_one : isFinite (1 : α) = true
  /-- What is finite is defined. -/
  isNaN_of_isFinite {x : α} : isFinite x = true → isNaN x = false
  /-- The absolute value of what is finite is finite. -/
  isFinite_abs {x : α} : isFinite x = true → isFinite (abs x) = true
  /-- What is defined is at most infinity. -/
  le_infinity {x : α} : isNaN x = false → x ≤ infinity
  /-- What is at least zero and not finite is at least infinity. -/
  infinity_le {x : α} : 0 ≤ x → isFinite x = false → infinity ≤ x
  /-- A finite product has finite factors. -/
  isFinite_of_mul {x y : α} : isFinite (x * y) = true → isFinite x = true ∧ isFinite y = true
  /-- A multiple by less than one does not overflow. -/
  isFinite_mul {t x : α} : isFinite t = true → 0 < t → t < 1 → isFinite x = true →
    isFinite (t * x) = true
  /-- A difference of defined values is undefined exactly where an infinity is taken off itself. -/
  isNaN_sub_iff {x y : α} : isNaN x = false → isNaN y = false →
    (isNaN (x - y) = true ↔ isFinite x = false ∧ (x == y) = true)

namespace OverflowRules

variable {α : Type} [Scalar α] {x y t : α}

/-- The larger of two finite values is finite. -/
theorem isFinite_larger (hx : isFinite x = true) (hy : isFinite y = true) :
    isFinite (larger x y) = true :=
  BoundRules.of_larger (fun v => isFinite v = true) hx hy

variable [OverflowRules α]

/-- What has an absolute value below something finite is finite. -/
theorem isFinite_of_abs_le (hx : isNaN x = false) (hxt : abs x ≤ t) (ht : isFinite t = true) :
    isFinite x = true := by
  by_contra h
  rw [BoundRules.abs_eq_infinity hx (Bool.eq_false_of_not_eq_true h)] at hxt
  exact BoundRules.not_infinity_le ht hxt

/-- **A bound that is not finite** admits everything defined. -/
theorem le_of_not_isFinite (hx : isNaN x = false) (ht : 0 ≤ t) (hinfinite : isFinite t = false) :
    x ≤ t :=
  OrderRules.le_trans (le_infinity hx) (infinity_le ht hinfinite)

end OverflowRules

namespace Extended

/-- The real numbers with infinities and an undefined value go by the rules. -/
instance : OverflowRules Extended where
  isFinite_one := rfl
  isNaN_of_isFinite {x} h := by
    cases x with
    | real a => rfl
    | infinite s => rfl
    | undefined => exact nomatch h
  isFinite_abs {x} h := by
    cases x with
    | real a => rfl
    | infinite s => exact nomatch h
    | undefined => exact nomatch h
  le_infinity {x} h := by
    cases x with
    | real a => rfl
    | infinite s => exact Or.inr rfl
    | undefined => exact nomatch h
  infinity_le {x} h hinfinite := by
    cases x with
    | real a => exact nomatch hinfinite
    | infinite s => exact Or.inr h
    | undefined => exact h.elim
  isFinite_of_mul := isFinite_mul.mp
  isFinite_mul ht _ _ hx := isFinite_mul.mpr ⟨ht, hx⟩
  isNaN_sub_iff {x y} hx hy := by
    cases x with
    | real a =>
      refine iff_of_false ?_ fun h => nomatch h.1
      cases y with
      | real b => exact Bool.false_ne_true
      | infinite t => exact Bool.false_ne_true
      | undefined => exact nomatch hy
    | infinite s =>
      cases y with
      | real b => exact iff_of_false Bool.false_ne_true fun h => nomatch h.2
      | infinite t =>
        rcases eq_or_ne s t with rfl | hst
        · cases s <;> exact iff_of_true rfl ⟨rfl, rfl⟩
        · obtain rfl : t = !s := Bool.eq_not.mpr hst.symm
          cases s <;> exact iff_of_false Bool.false_ne_true fun h => nomatch h.2
      | undefined => exact nomatch hy
    | undefined => exact nomatch hx

end Extended

end InteriorPoint

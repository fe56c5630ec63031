import InteriorPoint.Proofs.Scalar.Infinity

/-!
# What is finite, and what is undefined

Among the real numbers with infinities and an undefined value, a sum or a product is a real number
only if both operands are: there is no way back from an infinity except as a divisor. A quotient by
an infinity is zero, so of a quotient it is the dividend that has to be a real number, and whether
the divisor allows for it does not depend on the dividend (`isFinite_div`).

The undefined value has no way back at all. It is the only one that does not stand in the order.
-/

namespace InteriorPoint

open Scalar

namespace Extended

variable {x y z : Extended}

/-! ## Finite results -/

theorem isFinite_neg : isFinite (-x) = true ↔ isFinite x = true := by
  cases x <;> exact Iff.rfl

theorem isFinite_scaleInfinite (s : Bool) (a : ℝ) : isFinite (scaleInfinite s a) = false := by
  unfold scaleInfinite
  split_ifs
  · rfl
  · rfl

theorem isFinite_div_zero (a : ℝ) : isFinite (real a / real 0) = false := by
  show isFinite (if (0 : ℝ) = 0 then _ else _) = false
  rw [if_pos rfl]
  split_ifs
  · rfl
  · rfl

/-- **A sum** is finite exactly if both terms are. -/
theorem isFinite_add : isFinite (x + y) = true ↔ isFinite x = true ∧ isFinite y = true := by
  cases x with
  | real a =>
    cases y with
    | real b => exact iff_of_true rfl ⟨rfl, rfl⟩
    | infinite t => exact iff_of_false Bool.false_ne_true fun h => Bool.false_ne_true h.2
    | undefined => exact iff_of_false Bool.false_ne_true fun h => Bool.false_ne_true h.2
  | infinite s =>
    refine iff_of_false ?_ fun h => Bool.false_ne_true h.1
    cases y with
    | real b => exact Bool.false_ne_true
    | infinite t => cases s <;> cases t <;> exact Bool.false_ne_true
    | undefined => exact Bool.false_ne_true
  | undefined =>
    refine iff_of_false ?_ fun h => Bool.false_ne_true h.1
    cases y <;> exact Bool.false_ne_true

/-- **A difference** is finite exactly if both terms are. -/
theorem isFinite_sub : isFinite (x - y) = true ↔ isFinite x = true ∧ isFinite y = true :=
  isFinite_add.trans (and_congr_right fun _ => isFinite_neg)

/-- **A product** is finite exactly if both factors are. -/
theorem isFinite_mul : isFinite (x * y) = true ↔ isFinite x = true ∧ isFinite y = true := by
  cases x with
  | real a =>
    cases y with
    | real b => exact iff_of_true rfl ⟨rfl, rfl⟩
    | infinite t =>
      refine iff_of_false (fun h => ?_) fun h => Bool.false_ne_true h.2
      exact Bool.false_ne_true ((isFinite_scaleInfinite t a).symm.trans h)
    | undefined => exact iff_of_false Bool.false_ne_true fun h => Bool.false_ne_true h.2
  | infinite s =>
    refine iff_of_false (fun h => ?_) fun h => Bool.false_ne_true h.1
    cases y with
    | real b => exact Bool.false_ne_true ((isFinite_scaleInfinite s b).symm.trans h)
    | infinite t => exact Bool.false_ne_true h
    | undefined => exact Bool.false_ne_true h
  | undefined =>
    refine iff_of_false ?_ fun h => Bool.false_ne_true h.1
    cases y <;> exact Bool.false_ne_true

/-- **A finite quotient** has a finite dividend, and every other finite dividend has one by the same
divisor. -/
theorem isFinite_div (h : isFinite (x / y) = true) :
    isFinite x = true ∧ ∀ z, isFinite z = true → isFinite (z / y) = true := by
  cases x with
  | real a =>
    refine ⟨rfl, fun z hz => ?_⟩
    obtain ⟨c, rfl⟩ := Exact.isFinite_iff.mp hz
    cases y with
    | real b =>
      have hb : b ≠ 0 := by
        rintro rfl
        exact nomatch (isFinite_div_zero a).symm.trans h
      exact Exact.isFinite_iff.mpr ⟨c / b, Exact.div_real c hb⟩
    | infinite t => rfl
    | undefined => exact nomatch h
  | infinite s => cases y <;> exact nomatch h
  | undefined => cases y <;> exact nomatch h

/-! ## The undefined value -/

theorem undefined_add : undefined + y = undefined := by cases y <;> rfl

theorem add_undefined : x + undefined = undefined := by cases x <;> rfl

theorem undefined_sub : undefined - y = undefined := by cases y <;> rfl

theorem sub_undefined : x - undefined = undefined := by cases x <;> rfl

theorem undefined_mul : undefined * y = undefined := by cases y <;> rfl

theorem mul_undefined : x * undefined = undefined := by cases x <;> rfl

theorem undefined_div : undefined / y = undefined := by cases y <;> rfl

theorem div_undefined : x / undefined = undefined := by cases x <;> rfl

theorem not_le_undefined : ¬ x ≤ undefined := by cases x <;> exact id

theorem isNaN_iff : isNaN x = true ↔ x = undefined := by
  cases x with
  | real a => exact iff_of_false Bool.false_ne_true fun h => nomatch h
  | infinite s => exact iff_of_false Bool.false_ne_true fun h => nomatch h
  | undefined => exact iff_of_true rfl rfl

/-! ## The order -/

/-- **Every two defined values are comparable.** -/
theorem le_of_not_le (hx : x ≠ undefined) (hy : y ≠ undefined) (h : ¬ x ≤ y) : y ≤ x := by
  have h : ¬ Extended.le x y := h
  show Extended.le y x
  cases x <;> cases y <;> grind [Extended.le]

theorem le_refl (hx : x ≠ undefined) : x ≤ x := by
  by_contra h
  exact h (le_of_not_le hx hx h)

theorem le_trans (hxy : x ≤ y) (hyz : y ≤ z) : x ≤ z := by
  have hxy : Extended.le x y := hxy
  have hyz : Extended.le y z := hyz
  show Extended.le x z
  cases x <;> cases y <;> cases z <;> grind [Extended.le]

/-- Nothing else is as large as infinity. -/
theorem infinity_le (h : infinity ≤ x) : x = infinity := by
  cases x with
  | real a => exact nomatch (h : false = true)
  | infinite s => exact congrArg infinite (h.resolve_left Bool.false_ne_true)
  | undefined => exact h.elim

/-- A positive multiple of what is at least zero is at least zero. -/
theorem zero_le_mul {t : ℝ} (ht : 0 < t) (h : 0 ≤ x) : 0 ≤ Exact.real t * x := by
  cases x with
  | real a => exact mul_nonneg ht.le h
  | infinite s =>
    obtain rfl : s = false := h
    have hinfinite : Exact.real t * infinite false = infinite false :=
      InfinityRules.mul_infinity rfl ht
    rw [hinfinite]
    rfl
  | undefined => exact h.elim

/-- Only zero equals zero. -/
theorem eq_zero_of_beq (h : (x == 0) = true) : x = 0 := by
  cases x with
  | real a => exact congrArg real (of_decide_eq_true h)
  | infinite s => exact nomatch h
  | undefined => exact nomatch h

/-! ## Absolute values -/

theorem abs_zero : Scalar.abs (0 : Extended) = 0 := congrArg real (by simp)

theorem abs_ne_undefined (hx : x ≠ undefined) : Scalar.abs x ≠ undefined := by
  cases x with
  | real a => exact fun h => nomatch h
  | infinite s => exact fun h => nomatch h
  | undefined => exact absurd rfl hx

/-- No absolute value is below zero. -/
theorem not_abs_lt_zero : ¬ Scalar.abs x < 0 := by
  cases x with
  | real a => exact (abs_nonneg a).not_gt
  | infinite s => exact Bool.false_ne_true
  | undefined => exact id

end Extended

end InteriorPoint

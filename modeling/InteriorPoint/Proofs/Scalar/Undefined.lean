import InteriorPoint.Proofs.Scalar.Finite
import InteriorPoint.Proofs.Scalar.Real

/-!
# Rules for undefined values and for the order

What linear algebra relies on where a value may be undefined, without a word on how results are
rounded. Two steps are told apart. The first one (`UndefinedRules`) says only that an undefined
operand makes a result undefined, that an undefined value is not zero, and that a comparison with
one is false. The second one (`OrderRules`) adds that the defined values are in order.

All rules hold of floating-point numbers, of the real numbers with infinities and an undefined
value, and of the real numbers themselves, where nothing is undefined.

What is shown with them is about what results inherit from their operands. A property is
`Inherited` if a result has it only if the operands do: being defined is inherited, and so is being
a real number.
-/

namespace InteriorPoint

open Scalar

/-- **Scalars whose undefined values do not get lost**: they go through every operation, and no
comparison takes them for something else. -/
class UndefinedRules (α : Type) [Scalar α] : Prop where
  /-- A sum with an undefined term is undefined. -/
  isNaN_add {x y : α} : isNaN x = true ∨ isNaN y = true → isNaN (x + y) = true
  /-- A difference with an undefined term is undefined. -/
  isNaN_sub {x y : α} : isNaN x = true ∨ isNaN y = true → isNaN (x - y) = true
  /-- A product with an undefined factor is undefined. -/
  isNaN_mul {x y : α} : isNaN x = true ∨ isNaN y = true → isNaN (x * y) = true
  /-- A quotient with an undefined operand is undefined. -/
  isNaN_div {x y : α} : isNaN x = true ∨ isNaN y = true → isNaN (x / y) = true
  /-- The opposite of an undefined value is undefined. -/
  isNaN_neg {x : α} : isNaN x = true → isNaN (-x) = true
  /-- The absolute value of an undefined value is undefined. -/
  isNaN_abs {x : α} : isNaN x = true → isNaN (abs x) = true
  /-- Nothing is at most an undefined value. -/
  not_le_of_isNaN (x : α) {y : α} : isNaN y = true → ¬ x ≤ y
  /-- An undefined value is not zero. -/
  beq_zero_of_isNaN {x : α} : isNaN x = true → (x == 0) = false
  /-- No absolute value is below that of a zero, so a zero is never preferred as the larger one. -/
  not_abs_lt_of_beq_zero (x : α) {z : α} : (z == 0) = true → ¬ abs x < abs z

/-- **Scalars whose defined values are in order.** -/
class OrderRules (α : Type) [Scalar α] : Prop extends UndefinedRules α where
  /-- The absolute value of a defined value is defined. -/
  isNaN_abs_of_defined {x : α} : isNaN x = false → isNaN (abs x) = false
  /-- The order is transitive. -/
  le_trans {x y z : α} : x ≤ y → y ≤ z → x ≤ z
  /-- Every two defined values are comparable. -/
  le_of_not_le {x y : α} : isNaN x = false → isNaN y = false → ¬ x ≤ y → y ≤ x
  /-- Defined absolute values are at least zero. -/
  zero_le_abs {x : α} : isNaN x = false → 0 ≤ abs x
  /-- The absolute value of a zero is at most zero. -/
  abs_le_zero {z : α} : (z == 0) = true → abs z ≤ 0
  /-- A positive finite multiple of what is at least zero is at least zero. -/
  zero_le_mul {t x : α} : isFinite t = true → ¬ t ≤ 0 → 0 ≤ x → 0 ≤ t * x

/-- A defined value is at most itself. -/
theorem OrderRules.le_refl {α : Type} [Scalar α] [OrderRules α] {x : α} (hx : isNaN x = false) :
    x ≤ x := by
  by_contra h
  exact h (le_of_not_le hx hx h)

/-- What has something below it is defined. -/
theorem UndefinedRules.isNaN_of_le {α : Type} [Scalar α] [UndefinedRules α] {x y : α}
    (h : x ≤ y) : isNaN y = false :=
  Bool.eq_false_of_not_eq_true fun hy => not_le_of_isNaN x hy h

/-! ## What results inherit -/

/-- **A property that results inherit**: a result has it only if the operands do, except for a
divisor. -/
structure Inherited {α : Type} [Scalar α] (P : α → Prop) : Prop where
  /-- The terms of a sum. -/
  of_add {x y : α} : P (x + y) → P x ∧ P y
  /-- The terms of a difference. -/
  of_sub {x y : α} : P (x - y) → P x ∧ P y
  /-- The factors of a product. -/
  of_mul {x y : α} : P (x * y) → P x ∧ P y
  /-- The dividend of a quotient. -/
  of_div {x y : α} : P (x / y) → P x
  /-- The operand of an opposite. -/
  of_neg {x : α} : P (-x) → P x

/-- Operands of which an undefined one makes the result undefined are defined with it. -/
theorem defined_of_operation {α : Type} [Scalar α] {x y z : α}
    (h : isNaN x = true ∨ isNaN y = true → isNaN z = true) (hz : isNaN z = false) :
    isNaN x = false ∧ isNaN y = false := by
  rw [← Bool.not_eq_true, ← Bool.not_eq_true, ← not_or]
  exact fun hxy => Bool.false_ne_true (hz.symm.trans (h hxy))

/-- **Being defined is inherited.** -/
theorem UndefinedRules.inherited {α : Type} [Scalar α] [UndefinedRules α] :
    Inherited fun x : α => isNaN x = false where
  of_add := defined_of_operation isNaN_add
  of_sub := defined_of_operation isNaN_sub
  of_mul := defined_of_operation isNaN_mul
  of_div h := (defined_of_operation isNaN_div h).1
  of_neg h := Bool.eq_false_of_not_eq_true fun hx =>
    Bool.false_ne_true (h.symm.trans (isNaN_neg hx))

namespace Extended

/-- **Being a real number is inherited.** -/
theorem inherited_isFinite : Inherited fun x : Extended => isFinite x = true where
  of_add := isFinite_add.mp
  of_sub := isFinite_sub.mp
  of_mul := isFinite_mul.mp
  of_div h := (isFinite_div h).1
  of_neg := isFinite_neg.mp

/-! ## Scalars that go by the rules -/

theorem isNaN_eq_false_iff {x : Extended} : isNaN x = false ↔ x ≠ undefined := by
  rw [ne_eq, ← isNaN_iff, Bool.not_eq_true]

/-- The real numbers with infinities and an undefined value go by the rules. -/
instance : OrderRules Extended where
  isNaN_add h := by
    simp only [isNaN_iff] at h ⊢
    obtain rfl | rfl := h
    · exact undefined_add
    · exact add_undefined
  isNaN_sub h := by
    simp only [isNaN_iff] at h ⊢
    obtain rfl | rfl := h
    · exact undefined_sub
    · exact sub_undefined
  isNaN_mul h := by
    simp only [isNaN_iff] at h ⊢
    obtain rfl | rfl := h
    · exact undefined_mul
    · exact mul_undefined
  isNaN_div h := by
    simp only [isNaN_iff] at h ⊢
    obtain rfl | rfl := h
    · exact undefined_div
    · exact div_undefined
  isNaN_neg h := by rw [isNaN_iff.mp h]; rfl
  isNaN_abs h := by rw [isNaN_iff.mp h]; rfl
  not_le_of_isNaN x y h := by rw [isNaN_iff.mp h]; exact not_le_undefined
  beq_zero_of_isNaN h := by rw [isNaN_iff.mp h]; rfl
  not_abs_lt_of_beq_zero x z hz := by
    rw [eq_zero_of_beq hz, abs_zero]
    exact not_abs_lt_zero
  isNaN_abs_of_defined h := isNaN_eq_false_iff.mpr (abs_ne_undefined (isNaN_eq_false_iff.mp h))
  le_trans := Extended.le_trans
  le_of_not_le hx hy := Extended.le_of_not_le (isNaN_eq_false_iff.mp hx) (isNaN_eq_false_iff.mp hy)
  zero_le_abs {x} hx := by
    cases x with
    | real a => exact abs_nonneg a
    | infinite s => rfl
    | undefined => exact nomatch hx
  abs_le_zero {z} hz := by
    rw [eq_zero_of_beq hz, abs_zero]
    exact Extended.le_refl fun h => nomatch h
  zero_le_mul {t x} ht hpos := by
    obtain ⟨τ, rfl⟩ := Exact.isFinite_iff.mp ht
    exact Extended.zero_le_mul (not_le.mp (Exact.real_le_zero.not.mp hpos))

end Extended

/-- The real numbers go by the rules, and nothing among them is undefined. -/
instance : OrderRules ℝ where
  isNaN_add h := h.elim nofun nofun
  isNaN_sub h := h.elim nofun nofun
  isNaN_mul h := h.elim nofun nofun
  isNaN_div h := h.elim nofun nofun
  isNaN_neg h := nomatch h
  isNaN_abs h := nomatch h
  not_le_of_isNaN _ _ h := nomatch h
  beq_zero_of_isNaN h := nomatch h
  not_abs_lt_of_beq_zero x z hz := by
    rw [abs_eq z, (beq_iff z 0).mp hz, abs_zero]
    exact (abs_nonneg x).not_gt
  isNaN_abs_of_defined _ := rfl
  le_trans hxy hyz := hxy.trans hyz
  le_of_not_le _ _ h := (not_le.mp h).le
  zero_le_abs _ := abs_nonneg _
  abs_le_zero {z} hz := by rw [abs_eq z, (beq_iff z 0).mp hz, abs_zero]
  zero_le_mul _ hpos hx := mul_nonneg (not_le.mp hpos).le hx

end InteriorPoint

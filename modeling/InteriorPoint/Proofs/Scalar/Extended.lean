import InteriorPoint.Proofs.Scalar.Exact

/-!
# Real numbers with infinities and an undefined value

The exact reading of the floating-point rules: what is a real number is computed without
rounding, and whatever leaves the real numbers does so as it does in floating-point arithmetic. A
quotient by zero is infinite, a difference of equal infinities is undefined, and an undefined
operand makes every result undefined and every comparison false.

There is one zero. As a divisor it counts as positive.

This is the carrier of the statements about barriers, whose value is infinite outside the domain.
Inside the domain nothing leaves the real numbers, and there the lemmas below turn each operation
into the one of `ℝ`.
-/

namespace InteriorPoint

/-- **A real number, an infinity, or the undefined value.** -/
inductive Extended where
  /-- A real number. -/
  | real (x : ℝ)
  /-- An infinity, with the sign that makes it negative. -/
  | infinite (negative : Bool)
  /-- The undefined value. -/
  | undefined

namespace Extended

/-! ## Operations -/

/-- The opposite. -/
protected def neg : Extended → Extended
  | real x => real (-x)
  | infinite s => infinite (!s)
  | undefined => undefined

/-- The sum; opposite infinities have none. -/
protected noncomputable def add : Extended → Extended → Extended
  | real x, real y => real (x + y)
  | real _, infinite s => infinite s
  | infinite s, real _ => infinite s
  | infinite s, infinite t => if s = t then infinite s else undefined
  | _, _ => undefined

open Classical in
/-- An infinity multiplied by a real number; zero times infinity is undefined. -/
noncomputable def scaleInfinite (s : Bool) (y : ℝ) : Extended :=
  if y = 0 then undefined else infinite (s ^^ decide (y < 0))

/-- The product. -/
protected noncomputable def mul : Extended → Extended → Extended
  | real x, real y => real (x * y)
  | real x, infinite s => scaleInfinite s x
  | infinite s, real y => scaleInfinite s y
  | infinite s, infinite t => infinite (s ^^ t)
  | _, _ => undefined

open Classical in
/-- The quotient. What is not zero has an infinite quotient by zero, and an infinity has one by
every real number. -/
protected noncomputable def div : Extended → Extended → Extended
  | real x, real y =>
    if y = 0 then if x = 0 then undefined else infinite (decide (x < 0)) else real (x / y)
  | real _, infinite _ => real 0
  | infinite s, real y => infinite (s ^^ decide (y < 0))
  | _, _ => undefined

/-- The strict order, in which nothing stands before or after the undefined value. -/
protected def lt : Extended → Extended → Prop
  | real x, real y => x < y
  | real _, infinite s => s = false
  | infinite s, real _ => s = true
  | infinite s, infinite t => s = true ∧ t = false
  | _, _ => False

/-- The order, in which nothing stands before or after the undefined value. -/
protected def le : Extended → Extended → Prop
  | real x, real y => x ≤ y
  | real _, infinite s => s = false
  | infinite s, real _ => s = true
  | infinite s, infinite t => s = true ∨ t = false
  | _, _ => False

open Classical in
/-- Equality; the undefined value differs from itself. -/
protected noncomputable def beq : Extended → Extended → Bool
  | real x, real y => decide (x = y)
  | infinite s, infinite t => s == t
  | _, _ => false

/-- The absolute value. -/
protected noncomputable def abs : Extended → Extended
  | real x => real |x|
  | infinite _ => infinite false
  | undefined => undefined

open Classical in
/-- The square root, undefined below zero. -/
protected noncomputable def sqrt : Extended → Extended
  | real x => if x < 0 then undefined else real (Real.sqrt x)
  | infinite false => infinite false
  | _ => undefined

open Classical in
/-- The natural logarithm, negatively infinite at zero and undefined below. -/
protected noncomputable def log : Extended → Extended
  | real x => if x < 0 then undefined else if x = 0 then infinite true else real (Real.log x)
  | infinite false => infinite false
  | _ => undefined

open Classical in
/-- One with the sign of the operand. -/
protected noncomputable def signum : Extended → Extended
  | real x => real (if x < 0 then -1 else 1)
  | infinite s => real (if s then -1 else 1)
  | undefined => undefined

/-- True of the undefined value. -/
protected def isNaN : Extended → Bool
  | undefined => true
  | _ => false

/-- True of the real numbers. -/
protected def isFinite : Extended → Bool
  | real _ => true
  | _ => false

/-- **The exact scalars**, with the floating-point rules where a result is not a real number. -/
noncomputable instance : Scalar Extended where
  zero := real 0
  one := real 1
  natCast k := real k
  add := Extended.add
  sub x y := Extended.add x (Extended.neg y)
  mul := Extended.mul
  div := Extended.div
  neg := Extended.neg
  lt := Extended.lt
  le := Extended.le
  beq := Extended.beq
  abs := Extended.abs
  sqrt := Extended.sqrt
  log := Extended.log
  signum := Extended.signum
  isNaN := Extended.isNaN
  isFinite := Extended.isFinite
  infinity := infinite false
  decidableLT := Classical.decRel _
  decidableLE := Classical.decRel _

/-! ## Operations on real numbers -/

/-- **The real numbers are exact** among the extended ones. -/
noncomputable instance : Exact Extended where
  real := real
  real_zero := rfl
  real_one := rfl
  real_natCast _ := rfl
  add_real _ _ := rfl
  sub_real x y := congrArg real (sub_eq_add_neg x y).symm
  mul_real _ _ := rfl
  neg_real _ := rfl
  div_real _ _ hy := if_neg hy
  abs_real _ := rfl
  sqrt_real hx := if_neg hx.not_gt
  log_real hx := (if_neg hx.not_gt).trans (if_neg hx.ne')
  real_lt_real := Iff.rfl
  real_le_real := Iff.rfl
  real_beq_real := decide_eq_true_iff
  isNaN_real _ := rfl
  isFinite_iff {v} := by
    cases v with
    | real x => exact ⟨fun _ => ⟨x, rfl⟩, fun _ => rfl⟩
    | infinite s => exact ⟨fun h => absurd h Bool.false_ne_true, fun ⟨_, h⟩ => nomatch h⟩
    | undefined => exact ⟨fun h => absurd h Bool.false_ne_true, fun ⟨_, h⟩ => nomatch h⟩

/-! ## Laws of sums and products

What is not a real number is infinite or undefined, and two opposite infinities make a sum undefined
wherever they meet. So sums depend neither on the order of their terms nor on how they are grouped,
and products not on the order of their factors.
-/

protected theorem add_comm (a b : Extended) : a + b = b + a := by
  rcases a with x | (_ | _) | _ <;> rcases b with y | (_ | _) | _
  case real.real => exact congrArg real (add_comm x y)
  all_goals rfl

protected theorem add_assoc (a b c : Extended) : a + b + c = a + (b + c) := by
  rcases a with x | (_ | _) | _ <;> rcases b with y | (_ | _) | _ <;> rcases c with z | (_ | _) | _
  case real.real.real => exact congrArg real (add_assoc x y z)
  all_goals rfl

protected theorem add_left_comm (a b c : Extended) : a + (b + c) = b + (a + c) := by
  rw [← Extended.add_assoc, Extended.add_comm a, Extended.add_assoc]

protected theorem add_right_comm (a b c : Extended) : a + b + c = a + c + b := by
  rw [Extended.add_assoc, Extended.add_comm b, ← Extended.add_assoc]

protected theorem sub_right_comm (a b c : Extended) : a - b - c = a - c - b :=
  Extended.add_right_comm a (-b) (-c)

protected theorem mul_comm (a b : Extended) : a * b = b * a := by
  rcases a with x | (_ | _) | _ <;> rcases b with y | (_ | _) | _
  case real.real => exact congrArg real (mul_comm x y)
  all_goals rfl

/-- One is the unit of products. -/
protected theorem mul_one (a : Extended) : a * 1 = a := by
  rcases a with x | s | _
  · exact congrArg real (mul_one x)
  · show scaleInfinite s 1 = infinite s
    rw [scaleInfinite, if_neg one_ne_zero, decide_eq_false zero_le_one.not_gt, Bool.xor_false]
  · rfl

protected theorem one_mul (a : Extended) : 1 * a = a := by
  rw [Extended.mul_comm, Extended.mul_one]

end Extended

end InteriorPoint

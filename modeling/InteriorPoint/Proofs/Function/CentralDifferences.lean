import InteriorPoint.Function.Derivative
import InteriorPoint.Proofs.Function.RealPoint
import InteriorPoint.Proofs.Scalar.Double
import Mathlib.Data.List.FinRange
import Mathlib.Tactic.Choose

/-!
# Central differences on one working copy

A sweep over the coordinates of a point moves one coordinate of a working copy to both sides and
puts it back before the next one is visited. Nothing has to be assumed about the arithmetic for the
copy to be the point again: what is put back is the coordinate of the point itself, not the result
of undoing the move. So a sweep evaluates at the same points as if each of them were made afresh
(`Derivative.sides`), in the same order, with the same records, and it fails where the first of
these evaluations fails (`Derivative.sweep_eq`).

For the Hessian the columns of quotients are added to their transpose. An entry and its transposed
one are sums of the same two quotients, in either order, so the result is symmetric as soon as sums
commute, whatever was differentiated.
-/

namespace InteriorPoint

open Scalar

variable {α β : Type}

/-! ## Answers coordinate by coordinate -/

namespace Answer

variable {m : ℕ}

/-- **Evaluations one after the other** have the values of a vector exactly if each of them has. -/
theorem outcome_ofFnM_eq_ok {f : Fin m → Answer α β} {v : Vector β m} :
    (Vector.ofFnM f).outcome = .ok v ↔ ∀ i, (f i).outcome = .ok (v.get i) := by
  induction m with
  | zero =>
    have hv : v = #v[] := Vector.eq_empty
    rw [Vector.ofFnM_zero, hv]
    exact iff_of_true rfl fun i => i.elim0
  | succ m ih =>
    obtain ⟨init, last, rfl⟩ : ∃ (init : Vector β m) (last : β), v = init.push last :=
      Vector.exists_push
    have hinit (i : Fin m) : (init.push last).get i.castSucc = init.get i :=
      Vector.getElem_push_lt i.isLt
    have hlast : (init.push last).get (Fin.last m) = last := Vector.getElem_push_last
    rw [Vector.ofFnM_succ, outcome_bind_eq_ok, Fin.forall_fin_succ', hlast]
    simp only [hinit, ← ih, outcome_bind_eq_ok]
    constructor
    · rintro ⟨w, hw, b, hb, hpush⟩
      have hpush : w.push b = init.push last := Except.ok.inj hpush
      obtain ⟨rfl, rfl⟩ := Vector.push_eq_push.mp hpush
      exact ⟨hw, hb⟩
    · rintro ⟨hw, hb⟩
      exact ⟨init, hw, last, hb, rfl⟩

/-- Their records are those of the evaluations, in order. -/
theorem log_ofFnM {f : Fin m → Answer α β} (h : ∀ i, ∃ b, (f i).outcome = .ok b) :
    (Vector.ofFnM f).log = (List.finRange m).flatMap fun i => (f i).log := by
  induction m with
  | zero =>
    rw [Vector.ofFnM_zero]
    rfl
  | succ m ih =>
    choose b hb using h
    have hinit : (Vector.ofFnM fun i : Fin m => f i.castSucc).outcome
        = .ok (Vector.ofFn fun i => b i.castSucc) :=
      outcome_ofFnM_eq_ok.mpr fun i => by rw [hb, Vec.get_ofFn]
    rw [Vector.ofFnM_succ, log_bind_ok hinit, log_bind_ok (hb _), ih fun i => ⟨_, hb _⟩,
      List.finRange_succ_last, List.flatMap_append, List.flatMap_map]
    simp

end Answer

namespace Vec

variable {m : ℕ}

/-- The vector made afresh from another one, with `v` at the position `j`. -/
def withEntry (x : Vec α m) (j : Fin m) (v : α) : Vec α m :=
  Vector.ofFn fun i => if i = j then v else x.get i

@[simp]
theorem get_withEntry (x : Vec α m) (j : Fin m) (v : α) (i : Fin m) :
    (withEntry x j v).get i = if i = j then v else x.get i :=
  get_ofFn _ i

/-- An assignment in place gives the same entries. -/
theorem set_eq_withEntry (x : Vec α m) (j : Fin m) (v : α) :
    x.set j v j.isLt = withEntry x j v :=
  ext_get fun i => by rw [get_set, get_withEntry]

/-- An entry that is put back leaves the vector as it was. -/
theorem set_get_self (x : Vec α m) (j : Fin m) : x.set j (x.get j) j.isLt = x := by
  refine ext_get fun i => ?_
  rw [get_set]
  split_ifs with hij
  · rw [hij]
  · rfl

end Vec

namespace Derivative

variable [Scalar α] {m n : ℕ}

/-! ## Sweeps on fresh points -/

/-- The point with one coordinate moved up, by a millionth of its size and at least a millionth. -/
def upperSide (x : Vec α m) (j : Fin m) : Vec α m :=
  x.withEntry j (x.get j + tenth 6 * larger (abs (x.get j)) 1)

/-- The point with one coordinate moved down as far. -/
def lowerSide (x : Vec α m) (j : Fin m) : Vec α m :=
  x.withEntry j (x.get j - tenth 6 * larger (abs (x.get j)) 1)

/-- **How far a coordinate is moved** on the working copy. -/
theorem stepSize_eq (v : α) : stepSize v = tenth 6 * larger (abs v) 1 := rfl

/-- **The evaluations on both sides of a point** along a coordinate, the upper side first. -/
def sides (f : Array α → Answer α β) (x : Vec α m) (j : Fin m) : Answer α (β × β) := do
  let upper ← f (upperSide x j).toArray
  let lower ← f (lowerSide x j).toArray
  return (upper, lower)

/-- **All coordinates visited in order**, each on points that are made afresh. -/
def freshSweep {γ : Type} (f : Array α → Answer α β) (combine : Fin m → β → β → γ)
    (x : Vec α m) : Answer α (Vector γ m) :=
  Vector.ofFnM fun j => sides f x j >>= fun s => pure (combine j s.1 s.2)

/-- **One coordinate on the working copy**: it is moved to both sides and is the point again. -/
theorem probe_self (f : Array α → Answer α β) (x : Vec α m) (j : Fin m) :
    probe f x x j = sides f x j >>= fun s => pure (s.1, s.2, x) := by
  unfold probe sides upperSide lowerSide
  rw [stepSize_eq]
  -- the second and the third assignment take the place of the first
  simp only [Vector.set_set, Vec.set_get_self]
  simp only [Vec.set_eq_withEntry, bind_assoc, pure_bind]

/-- **A sweep on the working copy** evaluates as on fresh points, and leaves the copy as the point
that it started from. -/
theorem sweep_eq {γ : Type} (f : Array α → Answer α β) (finish : Fin m → β → β → Answer α γ)
    (x : Vec α m) (k : ℕ) (h : k ≤ m) :
    sweep f finish x k h
      = (Vector.ofFnM fun j : Fin k => sides f x (j.castLE h) >>= fun s =>
          finish (j.castLE h) s.1 s.2) >>= fun done => pure (done, x) := by
  induction k with
  | zero => rw [sweep, Vector.ofFnM_zero, pure_bind]
  | succ k ih =>
    rw [sweep, ih, Vector.ofFnM_succ]
    simp only [bind_assoc, pure_bind, probe_self]
    rfl

/-- **The gradient by differences** is a sweep on fresh points. -/
theorem gradient_eq_freshSweep (f : Smooth α n) (x : Vec α m) :
    gradient f x
      = freshSweep f.value (fun j upper lower => slope upper lower (stepSize (x.get j))) x := by
  unfold gradient
  simp only [sweep_eq, bind_assoc, pure_bind]
  exact bind_pure _

/-- The quotients of two gradients, component by component. -/
def quotients (x : Vec α n) (j : Fin n) (upper lower : Vec α n) : Vec α n :=
  Vector.ofFn fun i => slope (upper.get i) (lower.get i) (stepSize (x.get j))

/-- **The Hessian by differences** is made of the columns of a sweep on fresh points. -/
theorem hessian_eq_freshSweep (f : Smooth α n) (x : Vec α n) :
    hessian f x = freshSweep f.gradient (quotients x) x >>= fun columns =>
      pure (Mat.of fun i k => (Mat.entry columns k i + Mat.entry columns i k) * half) := by
  have hcolumn (j : Fin n) (upper lower : Vec α n) :
      hessianColumn x j upper lower = pure (quotients x j upper lower) := dif_pos rfl
  unfold hessian
  simp only [sweep_eq, bind_assoc, pure_bind, hcolumn]
  rfl

/-! ## What a sweep comes to -/

theorem outcome_sides_eq_ok {f : Array α → Answer α β} {x : Vec α m} {j : Fin m} {s : β × β} :
    (sides f x j).outcome = .ok s ↔ (f (upperSide x j).toArray).outcome = .ok s.1 ∧
      (f (lowerSide x j).toArray).outcome = .ok s.2 := by
  unfold sides
  simp only [Answer.outcome_bind_eq_ok]
  constructor
  · rintro ⟨upper, hupper, lower, hlower, hs⟩
    obtain rfl : (upper, lower) = s := Except.ok.inj hs
    exact ⟨hupper, hlower⟩
  · rintro ⟨hupper, hlower⟩
    exact ⟨s.1, hupper, s.2, hlower, rfl⟩

variable {γ : Type} {f : Array α → Answer α β} {combine : Fin m → β → β → γ} {x : Vec α m}

/-- **A sweep has a result** exactly if all evaluations have values, and the result is made from
them coordinate by coordinate. -/
theorem outcome_freshSweep_eq_ok {v : Vector γ m} :
    (freshSweep f combine x).outcome = .ok v ↔ ∀ j, ∃ upper lower,
      (f (upperSide x j).toArray).outcome = .ok upper ∧
      (f (lowerSide x j).toArray).outcome = .ok lower ∧ v.get j = combine j upper lower := by
  unfold freshSweep
  rw [Answer.outcome_ofFnM_eq_ok]
  refine forall_congr' fun j => ?_
  rw [Answer.outcome_bind_eq_ok, Prod.exists]
  refine exists_congr fun upper => exists_congr fun lower => ?_
  rw [outcome_sides_eq_ok, and_assoc]
  refine and_congr_right fun _ => and_congr_right fun _ => ?_
  exact ⟨fun h => (Except.ok.inj h).symm, fun h => congrArg Except.ok h.symm⟩

/-- **The records of a sweep**: coordinate by coordinate, those of the upper side and then those of
the lower side. -/
theorem log_freshSweep {v : Vector γ m} (h : (freshSweep f combine x).outcome = .ok v) :
    (freshSweep f combine x).log = (List.finRange m).flatMap fun j =>
      (f (upperSide x j).toArray).log ++ (f (lowerSide x j).toArray).log := by
  have hcoordinates := Answer.outcome_ofFnM_eq_ok.mp h
  unfold freshSweep
  rw [Answer.log_ofFnM fun j => ⟨_, hcoordinates j⟩]
  refine List.flatMap_congr fun j _ => ?_
  obtain ⟨upper, lower, hupper, hlower, -⟩ := outcome_freshSweep_eq_ok.mp h j
  have hsides : (sides f x j).outcome = .ok (upper, lower) :=
    outcome_sides_eq_ok.mpr ⟨hupper, hlower⟩
  rw [Answer.log_bind_ok hsides, sides, Answer.log_bind_ok hupper, Answer.log_bind_ok hlower]
  simp

/-- **The entries of the Hessian by differences**, where `D i j` is the quotient of component `i`
along coordinate `j`. -/
theorem outcome_hessian_eq_ok {f : Smooth α n} {x : Vec α n} {H : Mat α n n} :
    (hessian f x).outcome = .ok H ↔ ∃ D : Fin n → Fin n → α,
      (∀ j, ∃ upper lower, (f.gradient (upperSide x j).toArray).outcome = .ok upper ∧
        (f.gradient (lowerSide x j).toArray).outcome = .ok lower ∧
        ∀ i, D i j = slope (upper.get i) (lower.get i) (stepSize (x.get j))) ∧
      ∀ i k, Mat.entry H i k = (D i k + D k i) * half := by
  rw [hessian_eq_freshSweep, Answer.outcome_bind_eq_ok]
  constructor
  · rintro ⟨columns, hcolumns, hH⟩
    obtain rfl := Except.ok.inj hH
    refine ⟨fun i j => Mat.entry columns j i, fun j => ?_, fun i k => Mat.entry_of _ i k⟩
    obtain ⟨upper, lower, hupper, hlower, hcolumn⟩ := outcome_freshSweep_eq_ok.mp hcolumns j
    refine ⟨upper, lower, hupper, hlower, fun i => ?_⟩
    show (columns.get j).get i = _
    rw [hcolumn, quotients, Vec.get_ofFn]
  · rintro ⟨D, hD, hH⟩
    refine ⟨Mat.of fun j i => D i j, outcome_freshSweep_eq_ok.mpr fun j => ?_, ?_⟩
    · obtain ⟨upper, lower, hupper, hlower, hcolumn⟩ := hD j
      refine ⟨upper, lower, hupper, hlower, Vec.ext_get fun i => ?_⟩
      rw [quotients, Vec.get_ofFn, ← hcolumn]
      exact Mat.entry_of _ j i
    · refine congrArg Except.ok (Mat.ext_entry fun i k => ?_)
      rw [hH, Mat.entry_of, Mat.entry_of, Mat.entry_of]

/-- **Whatever was differentiated**, the Hessian by differences is symmetric if sums commute. -/
theorem entry_hessian_comm (hcomm : ∀ a b : α, a + b = b + a) {f : Smooth α n} {x : Vec α n}
    {H : Mat α n n} (hH : (hessian f x).outcome = .ok H) (i k : Fin n) :
    Mat.entry H i k = Mat.entry H k i := by
  obtain ⟨D, -, hD⟩ := outcome_hessian_eq_ok.mp hH
  rw [hD, hD, hcomm]

/-- Over double-precision numbers it is symmetric without rounding making a difference. -/
theorem entry_hessian_double {f : Smooth Float n} {x : Vec Float n} {H : Mat Float n n}
    (hH : (hessian f x).outcome = .ok H) (i k : Fin n) : Mat.entry H i k = Mat.entry H k i :=
  entry_hessian_comm Double.add_comm hH i k

/-! ## Real points -/

section Real

open Exact

variable [Exact α] {x : Fin m → ℝ} {j : Fin m}

/-- How far a real coordinate is moved. -/
noncomputable def realStep (v : ℝ) : ℝ := 1 / (10 ^ 6 : ℕ) * max |v| 1

theorem realStep_pos (v : ℝ) : 0 < realStep v :=
  mul_pos (by positivity) (zero_lt_one.trans_le (le_max_right _ _))

theorem stepSize_real (v : ℝ) : stepSize (real v : α) = real (realStep v) := by
  unfold stepSize realStep
  rw [tenth_real, abs_real, ← real_one (α := α), larger_real, mul_real, Nat.cast_pow,
    Nat.cast_ofNat]

/-- A slope between real values over a real distance. -/
theorem slope_real (u l : ℝ) {h : ℝ} (hh : h ≠ 0) :
    slope (real u : α) (real l) (real h) = real ((u - l) / (2 * h)) := by
  have htwo : (two : α) = real 2 := (real_natCast 2).symm
  unfold slope
  rw [htwo, sub_real, mul_real, div_real _ (mul_ne_zero two_ne_zero hh)]

/-- A real point with one coordinate moved. -/
theorem withEntry_vec (x : Fin m → ℝ) (j : Fin m) (h : ℝ) :
    (vec x : Vec α m).withEntry j (real (x j + h)) = vec (x + h • Pi.single j 1) := by
  refine Vec.ext_get fun i => ?_
  rw [Vec.get_withEntry, get_vec, get_vec, ← apply_ite real]
  by_cases hij : i = j
  · subst hij
    simp
  · simp [hij]

/-- The upper side of a real point. -/
theorem upperSide_vec (x : Fin m → ℝ) (j : Fin m) :
    upperSide (vec x : Vec α m) j = vec (x + realStep (x j) • Pi.single j 1) := by
  unfold upperSide
  rw [← stepSize_eq, get_vec, stepSize_real, add_real, withEntry_vec]

/-- The lower side of a real point. -/
theorem lowerSide_vec (x : Fin m → ℝ) (j : Fin m) :
    lowerSide (vec x : Vec α m) j = vec (x + -realStep (x j) • Pi.single j 1) := by
  unfold lowerSide
  rw [← stepSize_eq, get_vec, stepSize_real, sub_real, sub_eq_add_neg, withEntry_vec]

/-- **The central difference** of a real function along a coordinate. -/
noncomputable def realQuotient (F : (Fin m → ℝ) → ℝ) (x : Fin m → ℝ) (j : Fin m) : ℝ :=
  (F (x + realStep (x j) • Pi.single j 1) - F (x + -realStep (x j) • Pi.single j 1))
    / (2 * realStep (x j))

theorem slope_realStep (u l : ℝ) (x : Fin m → ℝ) (j : Fin m) :
    slope (real u : α) (real l) (stepSize ((vec x : Vec α m).get j))
      = real ((u - l) / (2 * realStep (x j))) := by
  rw [get_vec, stepSize_real, slope_real _ _ (realStep_pos _).ne']

variable {f : Smooth α n}

/-- The gradient by differences of real values. -/
theorem outcome_gradient_real {F : (Fin n → ℝ) → ℝ} (hf : ∀ y, f.HasValue y (F y))
    (x : Fin n → ℝ) : (gradient f (vec x)).outcome = .ok (vec (realQuotient F x)) := by
  rw [gradient_eq_freshSweep, outcome_freshSweep_eq_ok]
  intro j
  rw [upperSide_vec, lowerSide_vec]
  exact ⟨_, _, hf _, hf _, (get_vec _ j).trans (slope_realStep _ _ x j).symm⟩

/-- The Hessian by differences of real gradients. -/
theorem outcome_hessian_real {G : (Fin n → ℝ) → Fin n → ℝ} (hf : ∀ y, f.HasGradient y (G y))
    (x : Fin n → ℝ) : (hessian f (vec x)).outcome = .ok (mat (Matrix.of fun i k =>
      (realQuotient (G · i) x k + realQuotient (G · k) x i) * (1 / 2))) := by
  rw [outcome_hessian_eq_ok]
  refine ⟨fun i j => real (realQuotient (G · i) x j), fun j => ?_, fun i k => ?_⟩
  · rw [upperSide_vec, lowerSide_vec]
    refine ⟨_, _, hf _, hf _, fun i => ?_⟩
    rw [get_vec, get_vec, slope_realStep]
    rfl
  · rw [entry_mat, Matrix.of_apply, add_real, half_real, mul_real]

end Real

end Derivative

open InteriorPoint.Derivative

/-- **The law of central differences**, over scalars of any kind.

A coordinate `v` is moved by `10⁻⁶·max(|v|, 1)`, and no other one with it (`upperSide`,
`lowerSide`). The gradient is evaluated as on points that are made afresh for each coordinate,
records and failures included. It consists of the differences of the values on both sides over twice
this step, and there is one exactly if there are these values. The records of the upper side of a
coordinate come before those of its lower side, and both before those of the next coordinate.

The same holds of the Hessian with the gradients on both sides, of which it takes half the sums of
the quotients and the transposed ones. If sums commute, it is symmetric. -/
theorem difference_loops_law [Scalar α] {m n : ℕ} (f : Smooth α n) :
    (∀ x : Vec α m,
      Derivative.gradient f x = freshSweep f.value (fun j upper lower =>
        (upper - lower) / (two * (tenth 6 * larger (abs (x.get j)) 1))) x ∧
      (∀ g, (Derivative.gradient f x).outcome = .ok g ↔ ∀ j, ∃ upper lower,
        (f.value (upperSide x j).toArray).outcome = .ok upper ∧
        (f.value (lowerSide x j).toArray).outcome = .ok lower ∧
        g.get j = (upper - lower) / (two * (tenth 6 * larger (abs (x.get j)) 1))) ∧
      ∀ g, (Derivative.gradient f x).outcome = .ok g →
        (Derivative.gradient f x).log = (List.finRange m).flatMap fun j =>
          (f.value (upperSide x j).toArray).log ++ (f.value (lowerSide x j).toArray).log) ∧
    ∀ x : Vec α n,
      Derivative.hessian f x = (freshSweep f.gradient (fun j upper lower => Vector.ofFn fun i =>
          (upper.get i - lower.get i) / (two * (tenth 6 * larger (abs (x.get j)) 1))) x >>= fun D =>
        pure (Mat.of fun i k => ((D.get k).get i + (D.get i).get k) * half)) ∧
      (∀ H, (Derivative.hessian f x).outcome = .ok H ↔ ∃ D : Fin n → Fin n → α,
        (∀ j, ∃ upper lower, (f.gradient (upperSide x j).toArray).outcome = .ok upper ∧
          (f.gradient (lowerSide x j).toArray).outcome = .ok lower ∧
          ∀ i, D i j
            = (upper.get i - lower.get i) / (two * (tenth 6 * larger (abs (x.get j)) 1))) ∧
        ∀ i k, Mat.entry H i k = (D i k + D k i) * half) ∧
      (∀ H, (Derivative.hessian f x).outcome = .ok H →
        (Derivative.hessian f x).log = (List.finRange n).flatMap fun j =>
          (f.gradient (upperSide x j).toArray).log ++ (f.gradient (lowerSide x j).toArray).log) ∧
      ((∀ a b : α, a + b = b + a) → ∀ H, (Derivative.hessian f x).outcome = .ok H →
        ∀ i k, Mat.entry H i k = Mat.entry H k i) := by
  refine ⟨fun x => ?_, fun x => ?_⟩
  · rw [gradient_eq_freshSweep]
    exact ⟨rfl, fun g => outcome_freshSweep_eq_ok, fun g => log_freshSweep⟩
  · have hentries := fun H => outcome_hessian_eq_ok (f := f) (x := x) (H := H)
    refine ⟨hessian_eq_freshSweep f x, hentries, fun H hH => ?_,
      fun hcomm H => entry_hessian_comm hcomm⟩
    rw [hessian_eq_freshSweep] at hH ⊢
    obtain ⟨columns, hcolumns, -⟩ := Answer.outcome_bind_eq_ok.mp hH
    rw [Answer.log_bind_ok hcolumns, log_freshSweep hcolumns]
    simp

/-! ### A field that is not a gradient -/

namespace Derivative

open Exact

/-- The field `(x₁³, 0)`. -/
noncomputable def cubicField (y : Vec Extended 2) : Vec Extended 2 :=
  #v[y.get 1 * y.get 1 * y.get 1, real 0]

/-- The function zero, with this field in place of its gradient. -/
noncomputable def shear : Smooth Extended 2 :=
  Smooth.ofFormulas (fun _ => 0) cubicField fun _ => Mat.zero

theorem outcome_gradient_shear (y : Vec Extended 2) :
    (shear.gradient y.toArray).outcome = .ok (cubicField y) := by
  show (Smooth.point 2 y.toArray >>= fun y => pure (cubicField y) :
    Answer Extended (Vec Extended 2)).outcome = _
  rw [Smooth.point_toArray, pure_bind]
  rfl

/-- The quotients of the field at the origin: along the second coordinate the first component rises
by the square of the step, and nothing else changes. -/
noncomputable def shearQuotient (i j : Fin 2) : Extended :=
  real (if i = 0 ∧ j = 1 then realStep 0 ^ 2 else 0)

theorem slope_shear (i j : Fin 2) :
    slope ((cubicField (upperSide (vec ![0, 0]) j)).get i)
      ((cubicField (lowerSide (vec ![0, 0]) j)).get i)
      (stepSize ((vec ![0, 0] : Vec Extended 2).get j)) = shearQuotient i j := by
  unfold cubicField
  rw [upperSide_vec, lowerSide_vec, get_vec, get_vec, get_vec, stepSize_real, mul_real, mul_real,
    mul_real, mul_real]
  have hstep := (realStep_pos 0).ne'
  fin_cases i <;> fin_cases j
  · refine (slope_real _ _ hstep).trans (congrArg real ?_)
    simp
  · refine (slope_real _ _ hstep).trans (congrArg real ?_)
    simp
    field_simp
    ring
  · refine (slope_real _ _ hstep).trans (congrArg real ?_)
    simp
  · refine (slope_real _ _ hstep).trans (congrArg real ?_)
    simp

end Derivative

/-- The law for a field with quotients that are not symmetric, whose mean is. -/
theorem difference_loops_law_shear :
    (∀ a b : Extended, a + b = b + a) ∧
    ∃ H, (Derivative.hessian shear (Exact.vec ![0, 0])).outcome = .ok H ∧
      Mat.entry H 0 1 = Exact.real (1 / (2 * 10 ^ 12)) ∧ Mat.entry H 0 1 = Mat.entry H 1 0 := by
  obtain ⟨-, hentries, -, hsymmetric⟩ :=
    (difference_loops_law (m := 2) shear).2 (Exact.vec ![0, 0])
  have hH : (Derivative.hessian shear (Exact.vec ![0, 0])).outcome
      = .ok (Mat.of fun i k => (shearQuotient i k + shearQuotient k i) * half) := by
    refine (hentries _).mpr ⟨shearQuotient, fun j => ?_, fun i k => Mat.entry_of _ i k⟩
    exact ⟨_, _, outcome_gradient_shear _, outcome_gradient_shear _,
      fun i => (slope_shear i j).symm⟩
  refine ⟨Extended.add_comm, _, hH, ?_, hsymmetric Extended.add_comm _ hH 0 1⟩
  rw [Mat.entry_of, shearQuotient, shearQuotient, Exact.half_real, Exact.add_real,
    Exact.mul_real]
  norm_num [realStep]

end InteriorPoint

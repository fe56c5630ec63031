import InteriorPoint.Newton.LineSearch
import InteriorPoint.Proofs.Linear.RealEntries
import InteriorPoint.Proofs.Scalar.Infinity

/-!
# What a line search finds

A search goes through the step lengths `s`, `s·β`, `s·β²`, … and stops at the first one that it does
not turn down (`LineSearch.outcome_search_eq_ok_iff`). It turns a step length down if the value at
the trial point is too large and the step length is above the floor. So there are two ways to
stop, and the second one says nothing of the trial point.

What is infinite is too large against everything finite. What is undefined is not too large: a
search stops there at any step length.
-/

namespace InteriorPoint

open Scalar

namespace LineSearch

variable {α : Type} [Scalar α] {n : ℕ} {l : LineSearch α} {f : Smooth α n} {x v : Vec α n}
  {fx slope : α}

/-! ## One trial -/

/-- **A step length is turned down**: the value at the trial point is too large, and the step length
is above the floor. -/
def TurnsDown (l : LineSearch α) (f : Smooth α n) (x v : Vec α n) (fx slope s : α) : Prop :=
  ∃ y, (f.value (trial x v s).toArray).outcome = .ok y ∧
    fx + l.fraction * s * slope < y ∧ l.floor < s

/-- **A search stops** at a step length: the value at the trial point is not too large, or the step
length is not above the floor. -/
def StopsAt (l : LineSearch α) (f : Smooth α n) (x v : Vec α n) (fx slope s : α) : Prop :=
  ∃ y, (f.value (trial x v s).toArray).outcome = .ok y ∧
    ¬ (fx + l.fraction * s * slope < y ∧ l.floor < s)

/-- Where there is a value, a search turns a step length down or stops at it. -/
theorem stopsAt_iff {s y : α} (hy : (f.value (trial x v s).toArray).outcome = .ok y) :
    l.StopsAt f x v fx slope s ↔ ¬ l.TurnsDown f x v fx slope s := by
  constructor
  · rintro ⟨y₁, hy₁, hstop⟩ ⟨y₂, hy₂, hdown⟩
    obtain rfl := Except.ok.inj (hy₁.symm.trans hy₂)
    exact hstop hdown
  · exact fun h => ⟨y, hy, fun hdown => h ⟨y, hy, hdown⟩⟩

/-- One trial of a search, and what follows it. -/
theorem search_of_outcome (l : LineSearch α) {s y : α}
    (hy : (f.value (trial x v s).toArray).outcome = .ok y) (fx slope : α) (fuel : ℕ) :
    l.search f.value x v fx slope (fuel + 1) s =
      if fx + l.fraction * s * slope < y ∧ l.floor < s then
        ⟨(f.value (trial x v s).toArray).log
            ++ (l.search f.value x v fx slope fuel (s * l.factor)).log,
          (l.search f.value x v fx slope fuel (s * l.factor)).outcome⟩
      else ⟨(f.value (trial x v s).toArray).log, .ok s⟩ := by
  rw [search]
  generalize f.value (trial x v s).toArray = a at hy
  obtain ⟨log, o⟩ := a
  obtain rfl : o = .ok y := hy
  rw [Answer.bind_ok]
  split_ifs
  · rfl
  · simp

/-- The outcome of one trial of a search. -/
theorem outcome_search (l : LineSearch α) {s y : α}
    (hy : (f.value (trial x v s).toArray).outcome = .ok y) (fx slope : α) (fuel : ℕ) :
    (l.search f.value x v fx slope (fuel + 1) s).outcome =
      if fx + l.fraction * s * slope < y ∧ l.floor < s then
        (l.search f.value x v fx slope fuel (s * l.factor)).outcome
      else .ok s := by
  rw [l.search_of_outcome hy]
  exact apply_ite Answer.outcome _ _ _

/-- A search for a step length evaluates at its starting point first. -/
theorem stepLength_of_outcome (l : LineSearch α)
    (hfx : (f.value x.toArray).outcome = .ok fx) (g v : Vec α n) :
    l.stepLength f x g v =
      ⟨(f.value x.toArray).log ++ (l.search f.value x v fx (Vec.dot g v) l.trials 1).log,
        (l.search f.value x v fx (Vec.dot g v) l.trials 1).outcome⟩ := by
  rw [stepLength]
  generalize f.value x.toArray = a at hfx
  obtain ⟨log, o⟩ := a
  obtain rfl : o = .ok fx := hfx
  rw [Answer.bind_ok]

/-- A search for a step length, at a point where there is a value. -/
theorem outcome_stepLength_eq_ok {g : Vec α n} {σ : α} :
    (l.stepLength f x g v).outcome = .ok σ ↔ ∃ fx, (f.value x.toArray).outcome = .ok fx ∧
      (l.search f.value x v fx (Vec.dot g v) l.trials 1).outcome = .ok σ :=
  Answer.outcome_bind_eq_ok

/-! ## All trials -/

/-- The step length after a number of reductions. -/
def lengthAfter (l : LineSearch α) (s : α) : ℕ → α
  | 0 => s
  | k + 1 => lengthAfter l (s * l.factor) k

/-- **What a search finds**: the first of its step lengths that is not turned down. -/
theorem outcome_search_eq_ok_iff {fuel : ℕ} {s σ : α} :
    (l.search f.value x v fx slope fuel s).outcome = .ok σ ↔
      ∃ k < fuel, σ = l.lengthAfter s k ∧ l.StopsAt f x v fx slope (l.lengthAfter s k) ∧
        ∀ j < k, l.TurnsDown f x v fx slope (l.lengthAfter s j) := by
  induction fuel generalizing s with
  | zero => exact iff_of_false (fun h => nomatch h) fun ⟨k, hk, _⟩ => absurd hk (Nat.not_lt_zero k)
  | succ fuel ih =>
    constructor
    · intro h
      obtain ⟨y, hy, -⟩ := Answer.outcome_bind_eq_ok.mp h
      rw [l.outcome_search hy] at h
      by_cases hdown : fx + l.fraction * s * slope < y ∧ l.floor < s
      · rw [if_pos hdown] at h
        obtain ⟨k, hk, hσ, hstop, hturns⟩ := ih.mp h
        refine ⟨k + 1, Nat.succ_lt_succ hk, hσ, hstop, fun j hj => ?_⟩
        cases j with
        | zero => exact ⟨y, hy, hdown⟩
        | succ j => exact hturns j (Nat.lt_of_succ_lt_succ hj)
      · rw [if_neg hdown] at h
        exact ⟨0, Nat.succ_pos fuel, (Except.ok.inj h).symm, ⟨y, hy, hdown⟩,
          fun j hj => absurd hj (Nat.not_lt_zero j)⟩
    · rintro ⟨k, hk, rfl, hstop, hturns⟩
      cases k with
      | zero =>
        have hstop : l.StopsAt f x v fx slope s := hstop
        obtain ⟨y, hy, hstop⟩ := hstop
        rw [l.outcome_search hy, if_neg hstop]
        rfl
      | succ k =>
        have hdown : l.TurnsDown f x v fx slope s := hturns 0 (Nat.succ_pos k)
        obtain ⟨y, hy, hdown⟩ := hdown
        rw [l.outcome_search hy, if_pos hdown]
        exact ih.mpr ⟨k, Nat.lt_of_succ_lt_succ hk, rfl, hstop,
          fun j hj => hturns (j + 1) (Nat.succ_lt_succ hj)⟩

/-- Where there are values, all step lengths before the first one at which a search stops are turned
down. -/
theorem turnsDown_of_isLeast {s : α} {k : ℕ}
    (hvalue : ∀ j, ∃ y, (f.value (trial x v (l.lengthAfter s j)).toArray).outcome = .ok y)
    (hk : IsLeast {j | l.StopsAt f x v fx slope (l.lengthAfter s j)} k) :
    ∀ j < k, l.TurnsDown f x v fx slope (l.lengthAfter s j) := by
  intro j hj
  obtain ⟨y, hy⟩ := hvalue j
  by_contra hdown
  exact hj.not_ge (hk.2 ((stopsAt_iff hy).mpr hdown))

/-- **Where a search evaluates**: at its trial points, in order, up to the first one that is not
turned down, and nowhere else. So it writes the records of these evaluations. -/
theorem search_eq {fuel k : ℕ} {s : α} (hk : k < fuel)
    (hstop : l.StopsAt f x v fx slope (l.lengthAfter s k))
    (hturns : ∀ j < k, l.TurnsDown f x v fx slope (l.lengthAfter s j)) :
    l.search f.value x v fx slope fuel s =
      ⟨(List.range (k + 1)).flatMap fun j => (f.value (trial x v (l.lengthAfter s j)).toArray).log,
        .ok (l.lengthAfter s k)⟩ := by
  induction k generalizing fuel s with
  | zero =>
    obtain ⟨fuel, rfl⟩ := Nat.exists_eq_succ_of_ne_zero hk.ne'
    obtain ⟨y, hy, hstop⟩ := hstop
    rw [lengthAfter] at hy hstop
    rw [l.search_of_outcome hy, if_neg hstop]
    simp [lengthAfter]
  | succ k ih =>
    obtain ⟨fuel, rfl⟩ := Nat.exists_eq_succ_of_ne_zero (Nat.ne_zero_of_lt hk)
    have hdown : l.TurnsDown f x v fx slope s := hturns 0 (Nat.succ_pos k)
    obtain ⟨y, hy, hdown⟩ := hdown
    rw [l.search_of_outcome hy, if_pos hdown, ih (Nat.lt_of_succ_lt_succ hk) hstop
      fun j hj => hturns (j + 1) (Nat.succ_lt_succ hj)]
    simp only [List.range_succ_eq_map (n := k + 1), List.flatMap_cons, List.flatMap_map]
    rfl

/-- A search that turns down all its trial points is given up. -/
theorem outcome_search_of_turnsDown {fuel : ℕ} {s : α}
    (hturns : ∀ j < fuel, l.TurnsDown f x v fx slope (l.lengthAfter s j)) :
    (l.search f.value x v fx slope fuel s).outcome = .error .unfinished := by
  induction fuel generalizing s with
  | zero => rfl
  | succ fuel ih =>
    have hdown : l.TurnsDown f x v fx slope s := hturns 0 (Nat.succ_pos fuel)
    obtain ⟨y, hy, hdown⟩ := hdown
    rw [l.outcome_search hy, if_pos hdown]
    exact ih fun j hj => hturns (j + 1) (Nat.succ_lt_succ hj)

/-! ## Among real numbers -/

section Exact

open Exact

variable [Exact α]

/-- The step lengths are a geometric sequence. -/
theorem lengthAfter_real {β : ℝ} (hβ : l.factor = real β) (s : ℝ) (k : ℕ) :
    l.lengthAfter (real s) k = real (s * β ^ k) := by
  induction k generalizing s with
  | zero => rw [pow_zero, mul_one, lengthAfter]
  | succ k ih => rw [lengthAfter, hβ, mul_real, ih, mul_assoc, ← pow_succ']

/-- A trial point among real numbers. -/
theorem trial_vec (x v : Fin n → ℝ) (s : ℝ) :
    trial (vec x : Vec α n) (vec v) (real s) = vec (x + s • v) := by
  rw [trial, scale_vec, add_vec]

/-- The step lengths are the powers of one half. -/
theorem lengthAfter_default (k : ℕ) :
    ({} : LineSearch α).lengthAfter 1 k = real ((1 / 2) ^ k) := by
  rw [← real_one, lengthAfter_real half_real, one_mul]

/-- Whatever the values are, the step length that is found is a real number. -/
theorem exists_real_of_outcome_stepLength {g : Vec α n} {σ : α}
    (hσ : (({} : LineSearch α).stepLength f x g v).outcome = .ok σ) : ∃ t : ℝ, σ = real t := by
  obtain ⟨fx, -, hsearch⟩ := outcome_stepLength_eq_ok.mp hσ
  obtain ⟨k, -, rfl, -⟩ := outcome_search_eq_ok_iff.mp hsearch
  exact ⟨_, lengthAfter_default k⟩

/-- The number of reductions after which the step length is no longer above the floor. -/
def lastTrial : ℕ := 34

/-- **Which step lengths are above the floor.** -/
theorem floor_lt_iff (k : ℕ) : ({} : LineSearch α).floor < real ((1 / 2) ^ k) ↔ k < lastTrial := by
  have hfloor : ({} : LineSearch α).floor = real (1 / 10 ^ 10) := tenth_real 10
  have hhalf : (0 : ℝ) ≤ 1 / 2 := by norm_num
  rw [hfloor, real_lt_real]
  constructor
  · intro hk
    by_contra hlarge
    have hpow : ((1 : ℝ) / 2) ^ k ≤ (1 / 2) ^ 34 :=
      pow_le_pow_of_le_one hhalf (by norm_num) (not_lt.mp hlarge)
    norm_num at hpow hk
    linarith
  · intro hk
    have hpow : ((1 : ℝ) / 2) ^ 33 ≤ (1 / 2) ^ k :=
      pow_le_pow_of_le_one hhalf (by norm_num) (Nat.le_of_lt_succ hk)
    refine lt_of_lt_of_le ?_ hpow
    norm_num

end Exact

/-! ## Values that are not finite -/

section Rules

variable [InfinityRules α] {u : α}

/-- **A line search turns back** from a point, as long as its step length is above the floor and it
compares with something finite. -/
theorem turnsDown_of_infinity {s : α} (hy : (f.value (trial x v s).toArray).outcome = .ok infinity)
    (hfinite : isFinite (fx + l.fraction * s * slope) = true) (hfloor : l.floor < s) :
    l.TurnsDown f x v fx slope s :=
  ⟨infinity, hy, InfinityRules.lt_infinity hfinite, hfloor⟩

/-- **A line search stops** where the value is undefined, whatever it compares with. -/
theorem stopsAt_of_isNaN {s : α} (hy : (f.value (trial x v s).toArray).outcome = .ok u)
    (hnan : isNaN u = true) : l.StopsAt f x v fx slope s :=
  ⟨u, hy, fun h => InfinityRules.not_lt_of_isNaN _ hnan h.1⟩

end Rules

end LineSearch

end InteriorPoint

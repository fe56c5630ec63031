import InteriorPoint.Proofs.Function.ConstraintList

/-!
# The way out of the domain

A barrier asks in two places whether a point is inside its domain. The test of strict feasibility
goes on as long as a constraint is negative. The value goes on unless a constraint is undefined or
at least zero, and then leaves: it records the constraint and is infinite. These are two loops with
two comparisons, and they agree because every scalar has a sign, or is undefined.

Which way the value is left by cannot be read off the value alone, since a barrier that keeps to its
domain can be infinite as well. So the pass over the constraints is told apart from what is made of
it: `Barrier.exit` is the pass and answers with its way out, `Exit.finish` writes the record and
gives the value, and the value of a barrier is the one after the other (`value_eq_exit_bind`). The
test of strict feasibility is the same pass, asked whether it was completed
(`allSatisfied_eq_scan_bind`): it evaluates the same constraints, and with them it writes the same
records.
-/

namespace InteriorPoint

open Scalar

variable {α : Type} {n : ℕ}

/-- A sequence whose first part has a value, records and all. -/
theorem Answer.bind_of_outcome {β γ : Type} {y : Answer α β} {b : β} (h : y.outcome = .ok b)
    (f : β → Answer α γ) : y >>= f = ⟨y.log ++ (f b).log, (f b).outcome⟩ := by
  obtain ⟨l, o⟩ := y
  cases h
  rfl

namespace Barrier

/-! ## The pass over the constraints -/

/-- **How the pass over the constraints ends.** -/
inductive Exit (α : Type) where
  /-- Early, at the constraint with the number `index`, whose value violates it. -/
  | violated (index : ℕ) (value : α)
  /-- After the last constraint, with what the logarithms have left of a value. -/
  | completed (value : α)

/-- True of a pass that came to its end. -/
def Exit.isCompleted : Exit α → Bool
  | .violated .. => false
  | .completed _ => true

variable [Scalar α]

/-- **What is made of the pass**: a violated constraint is recorded and makes the value infinite. -/
def Exit.finish : Exit α → Answer α α
  | .violated i u => do
    Answer.record (.outsideDomain i u)
    return infinity
  | .completed v => pure v

/-- The pass over a list of constraints, where `i` is the number of the first one. -/
def scan (x : Array α) : (i : ℕ) → List (Smooth α n) → α → Answer α (Exit α)
  | _, [], v => pure (.completed v)
  | i, c :: cs, v => do
    let u ← c.value x
    if violates u then return .violated i u else scan x (i + 1) cs (v - log (-u))

/-- **The way by which the value of a barrier is left.** -/
def exit (φ : Barrier α n) (x : Array α) : Answer α (Exit α) := do
  let _ ← Smooth.point n x
  let v ← φ.objective.value x
  scan x 0 φ.constraints (φ.weight * v)

variable {φ : Barrier α n} {x : Array α}

/-- The loop of the value is the pass and what is made of it. -/
theorem subtractLogs_eq_scan_bind (i : ℕ) (cs : List (Smooth α n)) (v : α) :
    subtractLogs x i cs v = scan x i cs v >>= Exit.finish := by
  induction cs generalizing i v with
  | nil => rfl
  | cons c cs ih =>
    rw [subtractLogs, scan, bind_assoc]
    refine bind_congr fun u => ?_
    by_cases hu : violates u
    · simp only [if_pos hu, pure_bind, Exit.finish]
    · simp only [if_neg hu, ih]

/-- **The value of a barrier** is the pass and what is made of it. -/
theorem value_eq_exit_bind (φ : Barrier α n) (x : Array α) :
    φ.value x = φ.exit x >>= Exit.finish := by
  simp only [value, exit, subtractLogs_eq_scan_bind, bind_assoc]

/-- **The two comparisons agree**: a value is negative exactly if it violates nothing. -/
theorem lt_zero_iff_not_violates [SignRules α] {u : α} : u < 0 ↔ ¬ violates u := by
  constructor
  · rintro hneg (hnan | hle)
    · exact SignRules.not_lt_of_isNaN hnan hneg
    · exact SignRules.not_lt_of_le hle hneg
  · intro hu
    rcases SignRules.isNaN_or_lt_or_le u with hnan | hneg | hle
    · exact absurd (Or.inl hnan) hu
    · exact hneg
    · exact absurd (Or.inr hle) hu

/-- **The test of feasibility is the same pass**, asked whether it was completed. The value that the
pass starts from makes no difference to it. -/
theorem allSatisfied_eq_scan_bind [SignRules α] (i : ℕ) (cs : List (Smooth α n)) (v : α) :
    allSatisfied x cs = scan x i cs v >>= fun e => pure e.isCompleted := by
  induction cs generalizing i v with
  | nil => rfl
  | cons c cs ih =>
    rw [allSatisfied, scan, bind_assoc]
    refine bind_congr fun u => ?_
    by_cases hu : violates u
    · have hnot : ¬ u < 0 := fun hneg => lt_zero_iff_not_violates.mp hneg hu
      simp only [if_pos hu, if_neg hnot, pure_bind, Exit.isCompleted]
    · simp only [if_neg hu, if_pos (lt_zero_iff_not_violates.mpr hu)]
      exact ih (i + 1) _

/-! ## What the pass evaluates -/

/-- The records that a list of functions writes when its members are evaluated one after the
other. -/
def recordsOf (x : Array α) (fs : List (Smooth α n)) : List (Record α) :=
  fs.flatMap fun f => (f.value x).log

/-- **Constraints that are passed**: they have the values `us`, and none is violated. -/
structure Passed (x : Array α) (cs : List (Smooth α n)) (us : List α) : Prop where
  /-- The constraints have these values. -/
  values : cs.map (fun c => (c.value x).outcome) = us.map .ok
  /-- No constraint is violated. -/
  satisfied : ∀ u ∈ us, ¬ violates u

theorem passed_nil : Passed x ([] : List (Smooth α n)) [] :=
  ⟨rfl, fun _ hu => absurd hu List.not_mem_nil⟩

theorem Passed.cons {c : Smooth α n} {cs : List (Smooth α n)} {u : α} {us : List α}
    (hu : (c.value x).outcome = .ok u) (hsatisfied : ¬ violates u) (h : Passed x cs us) :
    Passed x (c :: cs) (u :: us) :=
  ⟨congrArg₂ List.cons hu h.values, List.forall_mem_cons.mpr ⟨hsatisfied, h.satisfied⟩⟩

/-- **Constraints that are passed** leave their records and take their logarithms off, in order. -/
theorem scan_append {before : List (Smooth α n)} {us : List α} (h : Passed x before us)
    (cs : List (Smooth α n)) (i : ℕ) (v : α) :
    scan x i (before ++ cs) v
      = ⟨recordsOf x before
          ++ (scan x (i + before.length) cs (us.foldl (fun v u => v - log (-u)) v)).log,
        (scan x (i + before.length) cs (us.foldl (fun v u => v - log (-u)) v)).outcome⟩ := by
  induction before generalizing us i v with
  | nil =>
    obtain rfl : [] = us := (List.map_eq_nil_iff.mp h.values.symm).symm
    rfl
  | cons c before ih =>
    cases us with
    | nil => exact nomatch h.values
    | cons u us =>
      obtain ⟨hu, hus⟩ := List.cons.inj h.values
      obtain ⟨hc, hsatisfied⟩ := List.forall_mem_cons.mp h.satisfied
      rw [List.cons_append, scan, Answer.bind_of_outcome hu, if_neg hc, ih ⟨hus, hsatisfied⟩]
      simp only [recordsOf, List.flatMap_cons, List.append_assoc, List.length_cons,
        List.foldl_cons, Nat.add_assoc, Nat.add_comm 1]

/-- At a violated constraint the pass ends, and what stands behind it is not looked at. -/
theorem scan_cons_of_violates {c : Smooth α n} {u : α} (hu : (c.value x).outcome = .ok u)
    (hviolates : violates u) (cs : List (Smooth α n)) (i : ℕ) (v : α) :
    scan x i (c :: cs) v = ⟨(c.value x).log, .ok (.violated i u)⟩ := by
  rw [scan, Answer.bind_of_outcome hu, if_pos hviolates]
  simp

/-- **Every way out**: all constraints are passed, or one is violated and those before it are
passed. -/
theorem exists_of_outcome_scan {cs : List (Smooth α n)} {i : ℕ} {v : α} {e : Exit α}
    (h : (scan x i cs v).outcome = .ok e) :
    (∃ us, Passed x cs us ∧ e = .completed (us.foldl (fun v u => v - log (-u)) v)) ∨
    ∃ before c after us u, cs = before ++ c :: after ∧ Passed x before us ∧
      (c.value x).outcome = .ok u ∧ violates u ∧ e = .violated (i + before.length) u := by
  induction cs generalizing i v with
  | nil => exact Or.inl ⟨[], passed_nil, (Except.ok.inj h).symm⟩
  | cons c cs ih =>
    obtain ⟨u, hu, h⟩ := Answer.outcome_bind_eq_ok.mp h
    by_cases hviolates : violates u
    · rw [if_pos hviolates] at h
      exact Or.inr ⟨[], c, cs, [], u, rfl, passed_nil, hu, hviolates, (Except.ok.inj h).symm⟩
    · rw [if_neg hviolates] at h
      rcases ih h with ⟨us, hus, rfl⟩ | ⟨before, d, after, us, w, rfl, hus, hw, hd, rfl⟩
      · exact Or.inl ⟨u :: us, hus.cons hu hviolates, rfl⟩
      · refine Or.inr ⟨c :: before, d, after, u :: us, w, rfl, hus.cons hu hviolates, hw, hd, ?_⟩
        rw [List.length_cons, Nat.add_assoc, Nat.add_comm 1]

/-! ## The two verdicts -/

section Verdicts

variable {y : Vec α n} {v₀ : α} (h₀ : (φ.objective.value y.toArray).outcome = .ok v₀)

include h₀

/-- The pass comes after the objective. -/
theorem exit_eq : φ.exit y.toArray
    = ⟨(φ.objective.value y.toArray).log ++ (scan y.toArray 0 φ.constraints (φ.weight * v₀)).log,
      (scan y.toArray 0 φ.constraints (φ.weight * v₀)).outcome⟩ := by
  unfold exit
  rw [Smooth.point_toArray, pure_bind, Answer.bind_of_outcome h₀]

/-- **Strict feasibility** is that the pass is completed. -/
theorem outcome_isStrictlyFeasible_eq_exit [SignRules α] :
    (φ.isStrictlyFeasible y.toArray).outcome
      = (φ.exit y.toArray).outcome.map Exit.isCompleted := by
  unfold isStrictlyFeasible
  rw [Smooth.point_toArray, pure_bind, allSatisfied_eq_scan_bind 0 _ (φ.weight * v₀),
    Answer.outcome_bind, exit_eq h₀]
  cases (scan y.toArray 0 φ.constraints (φ.weight * v₀)).outcome <;> rfl

/-- **The value where all constraints are passed.** -/
theorem value_of_passed {us : List α} (hus : Passed y.toArray φ.constraints us) :
    φ.value y.toArray = ⟨recordsOf y.toArray (φ.objective :: φ.constraints),
      .ok (us.foldl (fun v u => v - log (-u)) (φ.weight * v₀))⟩ := by
  have hscan := scan_append hus [] 0 (φ.weight * v₀)
  rw [List.append_nil] at hscan
  rw [value_eq_exit_bind, exit_eq h₀, hscan]
  simp [scan, Exit.finish, recordsOf]

/-- **The value where a constraint is violated** and those before it are passed. -/
theorem value_of_violates {before after : List (Smooth α n)} {c : Smooth α n} {us : List α} {u : α}
    (hsplit : φ.constraints = before ++ c :: after) (hus : Passed y.toArray before us)
    (hu : (c.value y.toArray).outcome = .ok u) (hviolates : violates u) :
    φ.value y.toArray = ⟨recordsOf y.toArray (φ.objective :: (before ++ [c]))
      ++ [.outsideDomain before.length u], .ok infinity⟩ := by
  rw [value_eq_exit_bind, exit_eq h₀, hsplit, scan_append hus, scan_cons_of_violates hu hviolates]
  simp [Exit.finish, Answer.record, recordsOf]

end Verdicts

/-- The constraint with the number `i` is violated. -/
def ViolatedBy (φ : Barrier α n) (y : Vec α n) (i : ℕ) : Prop :=
  ∃ c u, φ.constraints[i]? = some c ∧ (c.value y.toArray).outcome = .ok u ∧ violates u

/-- **The pass stops at the first violated constraint.** -/
theorem isLeast_violatedBy {y : Vec α n} {before after : List (Smooth α n)} {c : Smooth α n}
    {us : List α} {u : α} (hsplit : φ.constraints = before ++ c :: after)
    (hus : Passed y.toArray before us) (hu : (c.value y.toArray).outcome = .ok u)
    (hviolates : violates u) : IsLeast {i | φ.ViolatedBy y i} before.length := by
  refine ⟨⟨c, u, by simp [hsplit], hu, hviolates⟩, ?_⟩
  -- an earlier constraint is one of those that were passed
  rintro i ⟨d, w, hd, hw, hdviolates⟩
  by_contra hlt
  rw [hsplit, List.getElem?_append_left (not_le.mp hlt)] at hd
  have hvalue : (us.map Except.ok)[i]? = some (.ok w : Except (Failure α) α) := by
    rw [← hus.values, List.getElem?_map, hd, Option.map_some, hw]
  rw [List.getElem?_map, Option.map_eq_some_iff] at hvalue
  obtain ⟨w', hmem, hw'⟩ := hvalue
  obtain rfl := Except.ok.inj hw'
  exact hus.satisfied w' (List.mem_of_getElem? hmem) hdviolates

end Barrier

open Barrier

/-- **The law of the domain test**, over scalars with a sign, as double-precision numbers are, and
for components of any kind, the objective of which has a value.

The value of a barrier is what is made of the pass over its constraints, and the point is not
strictly feasible exactly if this pass ends early. Then it ends at the first violated constraint;
the value is infinite, whatever constraints follow; and of the records, those of the objective and
of the constraints up to this one come first, and one is the barrier's own. If the point is strictly
feasible the barrier adds no record to those of its components, and the value is the weighted
objective with the logarithms taken off in order. There is a verdict wherever the constraints have
values. -/
theorem domain_test_law [Scalar α] [SignRules α] (φ : Barrier α n) (x : Vec α n) {v₀ : α}
    (h₀ : (φ.objective.value x.toArray).outcome = .ok v₀) :
    φ.value x.toArray = (φ.exit x.toArray >>= Exit.finish) ∧
    ((φ.isStrictlyFeasible x.toArray).outcome = .ok false ↔
      ∃ i u, (φ.exit x.toArray).outcome = .ok (.violated i u)) ∧
    (∀ i u, (φ.exit x.toArray).outcome = .ok (.violated i u) →
      IsLeast {i | φ.ViolatedBy x i} i ∧
      (∃ c, φ.constraints[i]? = some c ∧ (c.value x.toArray).outcome = .ok u) ∧
      φ.value x.toArray = ⟨recordsOf x.toArray (φ.objective :: φ.constraints.take (i + 1))
        ++ [.outsideDomain i u], .ok infinity⟩ ∧
      (Record.outsideDomain i u).level = .trace ∧
      ∀ cs, (φ.withConstraints (φ.constraints.take (i + 1) ++ cs)).value x.toArray
        = φ.value x.toArray) ∧
    ((φ.isStrictlyFeasible x.toArray).outcome = .ok true → ∃ us : List α,
      φ.constraints.map (fun c => (c.value x.toArray).outcome) = us.map .ok ∧
      φ.value x.toArray = ⟨recordsOf x.toArray (φ.objective :: φ.constraints),
        .ok (us.foldl (fun v u => v - log (-u)) (φ.weight * v₀))⟩) ∧
    ((∀ c ∈ φ.constraints, ∃ u, (c.value x.toArray).outcome = .ok u) →
      ∃ b, (φ.isStrictlyFeasible x.toArray).outcome = .ok b) := by
  have hverdict := outcome_isStrictlyFeasible_eq_exit h₀
  have hexit : (φ.exit x.toArray).outcome
      = (scan x.toArray 0 φ.constraints (φ.weight * v₀)).outcome := by
    rw [exit_eq h₀]
  refine ⟨value_eq_exit_bind φ _, ?_, fun i u h => ?_, fun h => ?_, fun h => ?_⟩
  · rw [hverdict]
    rcases (φ.exit x.toArray).outcome with e | (⟨i, u⟩ | v)
    · simp [Except.map]
    · simp [Except.map, Exit.isCompleted]
    · simp [Except.map, Exit.isCompleted]
  · rw [hexit] at h
    rcases exists_of_outcome_scan h with
      ⟨us, -, he⟩ | ⟨before, c, after, us, w, hsplit, hus, hw, hviolates, he⟩
    · exact nomatch he
    · obtain ⟨rfl, rfl⟩ := Exit.violated.inj he
      rw [Nat.zero_add]
      have htake : φ.constraints.take (before.length + 1) = before ++ [c] := by
        simp [hsplit, List.take_append]
      rw [htake]
      refine ⟨isLeast_violatedBy hsplit hus hw hviolates, ⟨c, by simp [hsplit], hw⟩,
        value_of_violates h₀ hsplit hus hw hviolates, rfl, fun cs => ?_⟩
      rw [value_of_violates h₀ hsplit hus hw hviolates]
      exact value_of_violates (φ := φ.withConstraints (before ++ [c] ++ cs)) h₀
        (List.append_assoc before [c] cs) hus hw hviolates
  · rw [hverdict, hexit] at h
    cases hscan : (scan x.toArray 0 φ.constraints (φ.weight * v₀)).outcome with
    | error e => exact nomatch hscan ▸ h
    | ok e =>
      rw [hscan] at h
      rcases exists_of_outcome_scan hscan with ⟨us, hus, -⟩ | ⟨_, _, _, _, _, -, -, -, -, rfl⟩
      · exact ⟨us, hus.values, value_of_passed h₀ hus⟩
      · exact nomatch (Except.ok.inj h : false = true)
  · have : Nonempty α := ⟨v₀⟩
    choose! u hu using h
    exact ⟨_, outcome_isStrictlyFeasible_eq hu⟩

/-! ### A constraint without a defined value -/

/-- A quadratic function writes no records. -/
theorem Quadratic.log_value_toSmooth [Scalar α] (q : Quadratic α n) (x : Vec α n) :
    (q.toSmooth.value x.toArray).log = [] := by
  show (Smooth.point n x.toArray >>= fun x => pure (q.valueAt x) : Answer α α).log = _
  rw [Smooth.point_toArray, pure_bind]
  rfl

namespace Barrier

open Exact

/-- A weight of zero is not negative. By its name this fact is the same one in every definition with
such a weight. -/
theorem zero_weight_nonneg : (0 : ℝ) ≤ 0 := le_rfl

/-- The barrier with three constraints: a positive coordinate, the barrier of weight zero over the
half-line below one, and this half-line. -/
noncomputable def mixed : Barrier Extended 1 :=
  unweighted (Quadratic.affine 1 0).toSmooth
    [(Quadratic.affine (-1) 0).toSmooth, (overHalfLine 0 zero_weight_nonneg).toSmooth,
      halfLine.toSmooth]

/-- The half-line at the point two, with the record that it writes. -/
theorem value_halfLine_eq : halfLine.value (vec ![2] : Vec Extended 1).toArray
    = ⟨[.outsideDomain 0 (real 1)], .ok infinity⟩ := by
  have hvalue : (Quadratic.affine 1 (-1)).toSmooth.HasValue (α := Extended) ![2] 1 := by
    have h := (Quadratic.formulas_affine (α := Extended) 1 (-1) ![2]).1
    norm_num at h
    exact h
  have hsplit : halfLine.constraints = [] ++ (Quadratic.affine 1 (-1)).toSmooth :: [] := rfl
  have h := value_of_violates (φ := halfLine) (Quadratic.formulas_affine 1 0 ![2]).1 hsplit
    passed_nil hvalue (violates_real.mpr zero_le_one)
  rw [h]
  simp [recordsOf, halfLine, belowOne, Quadratic.log_value_toSmooth]

/-- At the weight zero the infinity of the half-line makes the barrier over it undefined. -/
theorem value_overHalfLine_zero :
    (overHalfLine 0 zero_weight_nonneg).value (vec ![2] : Vec Extended 1).toArray
      = ⟨[.outsideDomain 0 (real 1)], .ok .undefined⟩ := by
  have hhalf : (halfLine.toSmooth.value (vec ![2] : Vec Extended 1).toArray).outcome
      = .ok infinity := value_halfLine
  have hproduct : (real 0 : Extended) * infinity = .undefined := if_pos rfl
  have h := value_of_passed (φ := overHalfLine 0 zero_weight_nonneg) hhalf passed_nil
  rw [h]
  show Answer.mk _ (Except.ok ((real 0 : Extended) * infinity)) = _
  rw [hproduct]
  show Answer.mk ((halfLine.value (vec ![2] : Vec Extended 1).toArray).log ++ []) _ = _
  rw [value_halfLine_eq]
  rfl

end Barrier

/-- The law at the point two, where the second constraint is undefined and has written a record of
its own, and the third one is not looked at. -/
theorem domain_test_law_mixed :
    (mixed.objective.value (Exact.vec ![2] : Vec Extended 1).toArray).outcome
      = .ok (Exact.real (1 * 2 + 0)) ∧
    (mixed.isStrictlyFeasible (Exact.vec ![2] : Vec Extended 1).toArray).outcome = .ok false ∧
    IsLeast {i | mixed.ViolatedBy (Exact.vec ![2]) i} 1 ∧
    mixed.value (Exact.vec ![2] : Vec Extended 1).toArray
      = ⟨[.outsideDomain 0 (Exact.real 1), .outsideDomain 1 .undefined], .ok infinity⟩ := by
  have h₀ : (mixed.objective.value (Exact.vec ![2] : Vec Extended 1).toArray).outcome
      = .ok (Exact.real (1 * 2 + 0)) := (Quadratic.formulas_affine 1 0 ![2]).1
  have hfirst := (Quadratic.formulas_affine (α := Extended) (-1) 0 ![2]).1
  have hpassed : Passed (Exact.vec ![2] : Vec Extended 1).toArray
      [(Quadratic.affine (-1) 0).toSmooth] [Exact.real (-1 * 2 + 0)] := by
    refine passed_nil.cons hfirst (violates_real.not.mpr ?_)
    norm_num
  have hsecond : ((overHalfLine 0 zero_weight_nonneg).toSmooth.value
      (Exact.vec ![2] : Vec Extended 1).toArray).outcome = .ok .undefined :=
    congrArg Answer.outcome value_overHalfLine_zero
  have hexit : (mixed.exit (Exact.vec ![2] : Vec Extended 1).toArray).outcome
      = .ok (.violated 1 .undefined) := by
    rw [exit_eq h₀]
    show (scan _ 0 ([(Quadratic.affine (-1) 0).toSmooth] ++ _) _).outcome = _
    rw [scan_append hpassed, scan_cons_of_violates hsecond (Or.inl rfl)]
    rfl
  obtain ⟨-, hverdict, hviolated, -, -⟩ := domain_test_law mixed (Exact.vec ![2]) h₀
  obtain ⟨hleast, -, hvalue, -, -⟩ := hviolated 1 .undefined hexit
  refine ⟨h₀, hverdict.mpr ⟨1, .undefined, hexit⟩, hleast, ?_⟩
  rw [hvalue]
  show Answer.mk (recordsOf _ [(Quadratic.affine 1 0).toSmooth, (Quadratic.affine (-1) 0).toSmooth,
    (overHalfLine 0 zero_weight_nonneg).toSmooth] ++ _) _ = _
  have hrecords : ((overHalfLine 0 zero_weight_nonneg).toSmooth.value
      (Exact.vec ![2] : Vec Extended 1).toArray).log = [.outsideDomain 0 (Exact.real 1)] :=
    congrArg Answer.log value_overHalfLine_zero
  simp [recordsOf, Quadratic.log_value_toSmooth, hrecords]

end InteriorPoint

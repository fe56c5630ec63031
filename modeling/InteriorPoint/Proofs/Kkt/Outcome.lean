import InteriorPoint.Kkt.Solver
import Mathlib.Data.Nat.Notation
import Mathlib.Tactic.SplitIfs

/-!
# What a solve comes to

The records of a solve do not touch its outcome, so the outcome of each stage is a value of its own,
over any scalars: a check passes or names its refusal, a factorization answers or refuses, and the
stages follow one another until the first refusal. The equations below say all that a stage can
come to, and what is shown of a solver starts from them.
-/

namespace InteriorPoint

namespace Answer

variable {α β : Type}

/-- A record that is written under a condition does not touch the outcome. -/
theorem outcome_ite_record (c : Prop) [Decidable c] (r : Record α) (f : Unit → Answer α β) :
    (if c then record r >>= f else f ()).outcome = (f ()).outcome := by
  split_ifs
  · rfl
  · rfl

/-- A check that writes no records has a value exactly if it passes. -/
theorem outcome_ofExcept_eq_ok {x : Except (Error α) β} {b : β} :
    (ofExcept x).outcome = .ok b ↔ x = .ok b := by
  cases x with
  | error e => exact iff_of_false (fun h => nomatch h) fun h => nomatch h
  | ok c => exact ⟨fun h => congrArg Except.ok (Except.ok.inj h),
      fun h => congrArg Except.ok (Except.ok.inj h)⟩

end Answer

/-! ## Settings -/

/-- **The settings are valid** exactly if the regularization is finite and not negative and the
tolerance finite and positive. -/
theorem Settings.validate_eq_ok_iff_checks {α : Type} [Scalar α] {s : Settings α} :
    s.validate = .ok () ↔
      (Scalar.isFinite s.regularization = true ∧ ¬ s.regularization < 0) ∧
      (Scalar.isFinite s.pivotTolerance = true ∧ ¬ s.pivotTolerance ≤ 0) := by
  rw [← Bool.not_eq_false, ← not_or, ← Bool.not_eq_false, ← not_or]
  unfold validate
  split_ifs with hregularization htolerance
  · exact iff_of_false (fun h => nomatch h) fun h => h.1 hregularization
  · exact iff_of_false (fun h => nomatch h) fun h => h.2 htolerance
  · exact iff_of_true rfl ⟨hregularization, htolerance⟩

/-- Settings are refused as arguments. -/
theorem Settings.exists_of_validate_eq_error {α : Type} [Scalar α] {s : Settings α} {e : Error α}
    (h : s.validate = .error e) : ∃ cause, e = .invalidArgument cause := by
  unfold validate at h
  split_ifs at h
  · exact ⟨_, (Except.error.inj h).symm⟩
  · exact ⟨_, (Except.error.inj h).symm⟩

namespace Solver

variable {α : Type} [Scalar α] {n p : ℕ}

/-! ## Admission -/

/-- **What a solver asks for before it looks at a matrix**: valid settings and a variable. -/
def admission (s : Solver α) (n : ℕ) : Except (Failure α) Unit :=
  match s.settings.validate with
  | .error e => .error (.error e)
  | .ok _ => if n = 0 then .error (.error .zeroDimension) else .ok ()

theorem admission_eq_ok_iff {s : Solver α} :
    s.admission n = .ok () ↔ s.settings.validate = .ok () ∧ n ≠ 0 := by
  unfold admission
  cases s.settings.validate with
  | error e => exact iff_of_false (fun h => nomatch h) fun h => nomatch h.1
  | ok _ =>
    by_cases hn : n = 0
    · exact iff_of_false (fun h => nomatch (if_pos hn).symm.trans h) fun h => h.2 hn
    · exact iff_of_true (if_neg hn) ⟨rfl, hn⟩

/-- What is not admitted is refused. -/
theorem admission_cases (s : Solver α) (n : ℕ) :
    s.admission n = .ok () ∨ ∃ e, s.admission n = .error (.error e) := by
  unfold admission
  cases s.settings.validate with
  | error e => exact Or.inr ⟨e, rfl⟩
  | ok _ =>
    by_cases hn : n = 0
    · exact Or.inr ⟨_, if_pos hn⟩
    · exact Or.inl (if_neg hn)

/-! ## With equations -/

/-- The matrix that is factored for a block system. -/
def blockMatrix (s : Solver α) (H : Mat α n n) (A : Mat α p n) (T : Mat α n p) :
    Mat α (n + p) (n + p) :=
  Block.regularize s.settings.regularization (Block.assemble H A T)

/-- The step that a solution of a block system holds. -/
def blockStep (H : Mat α n n) (x : Vec α (n + p)) : Step α n where
  v := Block.head x
  w := some (Block.tail x).toArray
  decrementSquared := Vec.dot (Block.head x) (Mat.mulVec H (Block.head x))

/-- **The check of the signs** of eigenvalues that are found. -/
theorem outcome_checkInertia {s : Solver α} (hcheck : s.settings.checkInertia = true)
    {K : Mat α (n + p) (n + p)} {d : Vec α (n + p)} (hd : s.spectrum? K = some d) :
    (s.checkInertia n p K).outcome
      = (Inertia.check s.settings.pivotTolerance n p d.toList).outcome := by
  rw [checkInertia, if_pos hcheck, hd]

/-- **The check of the pivots** passes or refuses the system as singular. -/
theorem outcome_checkPivots (s : Solver α) {m : ℕ} (F : Lu α m) :
    (s.checkPivots F).outcome =
      if Scalar.isNaN (Vec.smallestAbs F.pivots.toList) = true ∨ Vec.smallestAbs F.pivots.toList
          ≤ s.settings.pivotTolerance * Vec.largestAbs F.pivots.toList then
        .error (.error (.singularSystem (.pivot (Vec.smallestAbs F.pivots.toList)
          s.settings.pivotTolerance (Vec.largestAbs F.pivots.toList))))
      else .ok () := by
  unfold checkPivots
  exact apply_ite Answer.outcome _ _ _

/-- **A block solve**: the two checks, one after the other, and the refined solution, if the
factors give one. -/
theorem outcome_solveBlock (s : Solver α) (H : Mat α n n) (A : Mat α p n) (T : Mat α n p)
    (g : Vec α n) (r : Vec α p) :
    (s.solveBlock H A T g r).outcome =
      (s.checkInertia n p (s.blockMatrix H A T)).outcome.bind fun _ =>
        (s.checkPivots (Lu.factor (s.blockMatrix H A T))).outcome.bind fun _ =>
          match (Lu.factor (s.blockMatrix H A T)).solve? (Block.rightSide g r) with
          | none => .error (.error (.singularSystem .zeroPivot))
          | some x => .ok (blockStep H (refine (Block.assemble H A T) (Block.rightSide g r)
              (Lu.factor (s.blockMatrix H A T)).solve? s.settings.refinements x)) := by
  unfold solveBlock blockMatrix
  dsimp only
  rw [Answer.outcome_bind]
  refine congrArg (Except.bind _) ?_
  funext _
  rw [Answer.outcome_bind]
  refine congrArg (Except.bind _) ?_
  funext _
  cases (Lu.factor (Block.regularize s.settings.regularization (Block.assemble H A T))).solve?
      (Block.rightSide g r) with
  | none => rfl
  | some x => exact Answer.outcome_ite_record _ _ _

/-- A block solve has a step exactly if both checks pass and the factors give a solution. -/
theorem outcome_solveBlock_eq_ok {s : Solver α} {H : Mat α n n} {A : Mat α p n} {T : Mat α n p}
    {g : Vec α n} {r : Vec α p} {step : Step α n} :
    (s.solveBlock H A T g r).outcome = .ok step ↔
      (s.checkInertia n p (s.blockMatrix H A T)).outcome = .ok () ∧
      (s.checkPivots (Lu.factor (s.blockMatrix H A T))).outcome = .ok () ∧
      ∃ x, (Lu.factor (s.blockMatrix H A T)).solve? (Block.rightSide g r) = some x ∧
        blockStep H (refine (Block.assemble H A T) (Block.rightSide g r)
          (Lu.factor (s.blockMatrix H A T)).solve? s.settings.refinements x) = step := by
  rw [outcome_solveBlock]
  cases (s.checkInertia n p (s.blockMatrix H A T)).outcome with
  | error e => exact iff_of_false (fun h => nomatch h) fun h => nomatch h.1
  | ok _ =>
    cases (s.checkPivots (Lu.factor (s.blockMatrix H A T))).outcome with
    | error e => exact iff_of_false (fun h => nomatch h) fun h => nomatch h.2.1
    | ok _ =>
      cases (Lu.factor (s.blockMatrix H A T)).solve? (Block.rightSide g r) with
      | none => exact iff_of_false (fun h => nomatch h) fun ⟨_, _, x, hx, _⟩ => nomatch hx
      | some x =>
        refine ⟨fun h => ⟨rfl, rfl, x, rfl, Except.ok.inj h⟩, ?_⟩
        rintro ⟨-, -, y, hy, hstep⟩
        rw [← hstep, ← Option.some.inj hy]
        rfl

/-- **A solve under equations** has a step exactly if the settings are valid, there is a variable,
the shapes fit, the transposed matrix is accepted and the block solve has it. -/
theorem outcome_solve_eq_ok {s : Solver α} {h a t : Dense α} {g : Vec α n} {r : Vec α p}
    {step : Step α n} :
    (s.solve h a t g r).outcome = .ok step ↔
      s.settings.validate = .ok () ∧ n ≠ 0 ∧ ∃ H A T, h = .ofMat H ∧ a = .ofMat A ∧ t = .ofMat T ∧
        Dense.checkTranspose a t Dense.symmetryTolerance = .ok () ∧
        (s.solveBlock H A T g r).outcome = .ok step := by
  unfold solve
  rw [Answer.outcome_bind_eq_ok]
  simp only [Answer.outcome_ofExcept_eq_ok]
  by_cases hn : n = 0
  · rw [if_pos hn]
    exact iff_of_false (fun ⟨_, _, h⟩ => nomatch h) fun h => h.2.1 hn
  · rw [if_neg hn]
    simp only [Answer.outcome_bind_eq_ok, Answer.outcome_ofExcept_eq_ok, Dense.shaped_eq_ok]
    constructor
    · rintro ⟨_, hvalid, H, hH, A, hA, T, hT, _, htranspose, hblock⟩
      exact ⟨hvalid, hn, H, A, T, hH, hA, hT, htranspose, hblock⟩
    · rintro ⟨hvalid, -, H, A, T, hH, hA, hT, htranspose, hblock⟩
      exact ⟨(), hvalid, H, hH, A, hA, T, hT, (), htranspose, hblock⟩

/-- A solve under equations with valid settings, a variable, shapes that fit and an accepted
transposed matrix comes to what the block solve comes to. -/
theorem outcome_solve {s : Solver α} (hvalid : s.settings.validate = .ok ()) (hn : n ≠ 0)
    {H : Mat α n n} {A : Mat α p n} {T : Mat α n p}
    (htranspose : Dense.checkTranspose (.ofMat A) (.ofMat T) Dense.symmetryTolerance = .ok ())
    (g : Vec α n) (r : Vec α p) :
    (s.solve (.ofMat H) (.ofMat A) (.ofMat T) g r).outcome = (s.solveBlock H A T g r).outcome := by
  unfold solve
  simp only [hvalid, Dense.shaped_ofMat, if_neg hn, htranspose, Answer.outcome_bind]
  rfl

/-- **A solve under equations**, for matrices of fitting shapes: the admission, the check of the
transposed matrix and the block solve, one after the other. -/
theorem outcome_solve_ofMat (s : Solver α) (H : Mat α n n) (A : Mat α p n) (T : Mat α n p)
    (g : Vec α n) (r : Vec α p) :
    (s.solve (.ofMat H) (.ofMat A) (.ofMat T) g r).outcome =
      (s.admission n).bind fun _ =>
        (Dense.checkTranspose (.ofMat A) (.ofMat T) Dense.symmetryTolerance).bind fun _ =>
          (s.solveBlock H A T g r).outcome := by
  unfold solve admission
  simp only [Dense.shaped_ofMat, Answer.outcome_bind]
  cases s.settings.validate with
  | error e => rfl
  | ok _ =>
    by_cases hn : n = 0
    · simp only [if_pos hn]
      rfl
    · simp only [if_neg hn, Answer.outcome_bind]
      rfl

/-! ## Without equations -/

/-- The step of a reduced solve in a given direction. -/
def reducedStep (g v : Vec α n) : Step α n where
  v := v
  w := none
  decrementSquared := -Vec.dot g v

/-- **A reduced solve**: the refined solution, if the factorization succeeds. -/
theorem outcome_solveDense (s : Solver α) (H : Mat α n n) (g : Vec α n) :
    (s.solveDense H g).outcome =
      match Cholesky.factor? (Block.shiftDiagonal s.settings.regularization H) with
      | none => .error (.error (.notPositiveDefinite (.pivot n)))
      | some F => .ok (reducedStep g (refine H (Vec.neg g) (fun b => some (F.solve b))
          s.settings.refinements (F.solve (Vec.neg g)))) := by
  unfold solveDense
  cases Cholesky.factor? (Block.shiftDiagonal s.settings.regularization H) with
  | none => rfl
  | some F => exact Answer.outcome_ite_record _ _ _

/-- **A solve without equations** has a step exactly if the settings are valid, there is a variable,
the shape fits and the reduced solve has it. -/
theorem outcome_solveReduced_eq_ok {s : Solver α} {h : Dense α} {g : Vec α n} {step : Step α n} :
    (s.solveReduced h g).outcome = .ok step ↔
      s.settings.validate = .ok () ∧ n ≠ 0 ∧ ∃ H, h = .ofMat H ∧
        (s.solveDense H g).outcome = .ok step := by
  unfold solveReduced
  rw [Answer.outcome_bind_eq_ok]
  simp only [Answer.outcome_ofExcept_eq_ok]
  by_cases hn : n = 0
  · rw [if_pos hn]
    exact iff_of_false (fun ⟨_, _, h⟩ => nomatch h) fun h => h.2.1 hn
  · rw [if_neg hn]
    simp only [Answer.outcome_bind_eq_ok, Answer.outcome_ofExcept_eq_ok, Dense.shaped_eq_ok]
    constructor
    · rintro ⟨_, hvalid, H, hH, hdense⟩
      exact ⟨hvalid, hn, H, hH, hdense⟩
    · rintro ⟨hvalid, -, H, hH, hdense⟩
      exact ⟨(), hvalid, H, hH, hdense⟩

/-- A solve without equations with valid settings, a variable and a shape that fits comes to what
the reduced solve comes to. -/
theorem outcome_solveReduced {s : Solver α} (hvalid : s.settings.validate = .ok ()) (hn : n ≠ 0)
    (H : Mat α n n) (g : Vec α n) :
    (s.solveReduced (.ofMat H) g).outcome = (s.solveDense H g).outcome := by
  unfold solveReduced
  simp only [hvalid, Dense.shaped_ofMat, if_neg hn, Answer.outcome_bind]
  rfl

/-- **A solve without equations**, for a matrix of fitting shape: the admission and the reduced
solve, one after the other. -/
theorem outcome_solveReduced_ofMat (s : Solver α) (H : Mat α n n) (g : Vec α n) :
    (s.solveReduced (.ofMat H) g).outcome =
      (s.admission n).bind fun _ => (s.solveDense H g).outcome := by
  unfold solveReduced admission
  simp only [Dense.shaped_ofMat, Answer.outcome_bind]
  cases s.settings.validate with
  | error e => rfl
  | ok _ =>
    by_cases hn : n = 0
    · simp only [if_pos hn]
      rfl
    · simp only [if_neg hn, Answer.outcome_bind]
      rfl

end Solver

end InteriorPoint

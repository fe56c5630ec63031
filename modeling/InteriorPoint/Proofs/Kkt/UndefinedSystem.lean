import InteriorPoint.Proofs.Kkt.Totality
import InteriorPoint.Proofs.Linear.DefinedTriangle

/-!
# An undefined system has no step

Every test that a solve makes of its matrices is a comparison, and a comparison with an undefined
value is false. So a test notices such a value only if it is written the right way round, and the
minimum that the check of the pivots looks at can lose one. What decides is where the undefined
value ends up. Elimination carries it on: if no pivot is zero, as is the case when there is a step,
every entry of the matrix has a part in a pivot, and the pivots that pass the check are defined
(`Solver.defined_of_outcome_solve`). The square-root factorization reads the lower triangle and
carries it into a pivot of the same row (`Solver.defined_of_outcome_solveReduced`).

The settings play no part in the first case: with or without the inertia check, and whatever
eigenvalues are reported, the check of the pivots comes after it.
-/

namespace InteriorPoint

open Scalar

/-- A matrix with an undefined entry. -/
def Mat.HasUndefined {α : Type} [Scalar α] {m n : ℕ} (M : Mat α m n) : Prop :=
  ∃ i j, isNaN (Mat.entry M i j) = true

namespace Solver

variable {α : Type} [Scalar α] {s : Solver α} {n p : ℕ}

/-! ## With equations -/

/-- **A solve under equations is decided**, if the eigenvalues that it asks for are found. -/
theorem decided_outcome_solve {H : Mat α n n} {A : Mat α p n} {T : Mat α n p}
    (hspectrum : s.settings.checkInertia = true → ∃ d, s.spectrum? (s.blockMatrix H A T) = some d)
    (g : Vec α n) (r : Vec α p) :
    Answer.Decided (s.solve (.ofMat H) (.ofMat A) (.ofMat T) g r).outcome := by
  have hadmission : Answer.Decided (s.admission n) :=
    (s.admission_cases n).imp_left fun h => ⟨(), h⟩
  rw [outcome_solve_ofMat, outcome_solveBlock]
  refine hadmission.bind fun _ _ => ?_
  refine (Dense.settled_checkTranspose A T _).decided.bind fun _ _ => ?_
  refine (settled_checkInertia hspectrum).decided.bind fun _ _ => ?_
  refine (settled_checkPivots s _).decided.bind fun _ _ => ?_
  cases (Lu.factor (s.blockMatrix H A T)).solve? (Block.rightSide g r) with
  | none => exact Or.inr ⟨_, rfl⟩
  | some x => exact Or.inl ⟨_, rfl⟩

variable [UndefinedRules α]

/-- **The matrices of a step under equations are defined.** -/
theorem defined_of_outcome_solve {H : Mat α n n} {A : Mat α p n} {T : Mat α n p} {g : Vec α n}
    {r : Vec α p} {step : Step α n}
    (hstep : (s.solve (.ofMat H) (.ofMat A) (.ofMat T) g r).outcome = .ok step) :
    ¬ H.HasUndefined ∧ ¬ A.HasUndefined ∧ ¬ T.HasUndefined := by
  obtain ⟨-, -, H', A', T', hH, hA, hT, -, hblock⟩ := outcome_solve_eq_ok.mp hstep
  obtain rfl := Dense.ofMat_inj hH
  obtain rfl := Dense.ofMat_inj hA
  obtain rfl := Dense.ofMat_inj hT
  obtain ⟨-, hpivots, -⟩ := outcome_solveBlock_eq_ok.mp hblock
  have hdefined := of_outcome_solveBlock UndefinedRules.inherited (isNaN_get_pivots hpivots) hblock
  refine ⟨?_, ?_, ?_⟩
  · rintro ⟨i, j, hij⟩
    rw [← Block.assemble_castAdd_castAdd H A T i j, hdefined] at hij
    exact nomatch hij
  · rintro ⟨i, j, hij⟩
    rw [← Block.assemble_natAdd_castAdd H A T i j, hdefined] at hij
    exact nomatch hij
  · rintro ⟨i, j, hij⟩
    rw [← Block.assemble_castAdd_natAdd H A T i j, hdefined] at hij
    exact nomatch hij

/-! ## Without equations -/

/-- **A Hessian with an undefined entry in its lower triangle** has no square-root factor, whatever
the regularization. -/
theorem factor?_shiftDiagonal_of_isNaN {ε : α} {H : Mat α n n} {i j : Fin n} (hj : j ≤ i)
    (h : isNaN (Mat.entry H i j) = true) : Cholesky.factor? (Block.shiftDiagonal ε H) = none := by
  refine Option.eq_none_iff_forall_ne_some.mpr fun F hF => ?_
  have hdefined := Cholesky.defined_of_factor? hF hj
  have hundefined : isNaN (Mat.entry (Block.shiftDiagonal ε H) i j) = true := by
    unfold Block.shiftDiagonal
    rw [Mat.entry_of]
    split_ifs
    · exact UndefinedRules.isNaN_add (Or.inl h)
    · exact h
  exact Bool.false_ne_true (hdefined.symm.trans hundefined)

end Solver

/-- **An undefined system has no step.** For matrices of fitting shapes, a solve under equations of
which one has an undefined entry ends with an error, whatever the settings and whatever eigenvalues
are reported, if some are. With valid settings, a solve without equations whose Hessian has an
undefined entry on or below the diagonal ends with the error of a Hessian that is not positive
definite. -/
theorem undefined_system_law {α : Type} [Scalar α] [UndefinedRules α] (s : Solver α) {n : ℕ}
    (H : Mat α n n) :
    (∀ {p : ℕ} (A : Mat α p n) (T : Mat α n p) (g : Vec α n) (r : Vec α p),
      H.HasUndefined ∨ A.HasUndefined ∨ T.HasUndefined →
      (s.settings.checkInertia = true → ∃ d, s.spectrum? (s.blockMatrix H A T) = some d) →
      ∃ e, (s.solve (.ofMat H) (.ofMat A) (.ofMat T) g r).outcome = .error (.error e)) ∧
    (s.settings.validate = .ok () → ∀ i j, j ≤ i → isNaN (Mat.entry H i j) = true → ∀ g : Vec α n,
      (s.solveReduced (.ofMat H) g).outcome
        = .error (.error (.notPositiveDefinite (.pivot n)))) := by
  constructor
  · intro p A T g r hundefined hspectrum
    refine (Solver.decided_outcome_solve hspectrum g r).resolve_left fun ⟨step, hstep⟩ => ?_
    obtain ⟨hH, hA, hT⟩ := Solver.defined_of_outcome_solve hstep
    exact hundefined.elim hH fun h => h.elim hA hT
  · intro hvalid i j hj hij g
    rw [Solver.outcome_solveReduced hvalid (Nat.ne_zero_of_lt i.isLt), Solver.outcome_solveDense,
      Solver.factor?_shiftDiagonal_of_isNaN hj hij]

/-- The default settings without the inertia check. -/
noncomputable def Solver.extendedUnchecked : Solver Extended where
  settings := { checkInertia := false }

/-- A Hessian with an undefined entry below the diagonal. -/
noncomputable def Mat.spoiled : Mat Extended 2 2 := #v[#v[1, 0], #v[.undefined, 1]]

/-- The law for an undefined entry below the diagonal, with one equation and without. -/
theorem undefined_system_law_spoiled :
    Mat.spoiled.HasUndefined ∧ Solver.extendedUnchecked.settings.validate = .ok () ∧
    (∃ e, (Solver.extendedUnchecked.solve (.ofMat Mat.spoiled)
      (.ofMat (Mat.zero : Mat Extended 1 2)) (.ofMat (Mat.zero : Mat Extended 2 1)) #v[1, 1]
        (#v[0] : Vec Extended 1)).outcome = .error (.error e)) ∧
    (Solver.extendedUnchecked.solveReduced (.ofMat Mat.spoiled) #v[1, 1]).outcome
      = .error (.error (.notPositiveDefinite (.pivot 2))) := by
  have hspoiled : isNaN (Mat.entry Mat.spoiled 1 0) = true := rfl
  have hvalid : Solver.extendedUnchecked.settings.validate = .ok () :=
    Settings.validate_eq_ok_iff_exists.mpr
      ⟨0, _, Exact.real_zero.symm, Exact.tenth_real 13, le_rfl, by positivity⟩
  obtain ⟨hblock, hreduced⟩ := undefined_system_law Solver.extendedUnchecked Mat.spoiled
  exact ⟨⟨1, 0, hspoiled⟩, hvalid, hblock _ _ _ _ (Or.inl ⟨1, 0, hspoiled⟩) nofun,
    hreduced hvalid 1 0 (Fin.zero_le _) hspoiled _⟩

end InteriorPoint

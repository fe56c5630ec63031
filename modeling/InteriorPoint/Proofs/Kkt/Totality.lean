import InteriorPoint.Proofs.Kkt.CheckedPivots
import InteriorPoint.Proofs.Kkt.EmptyEquations

/-!
# Every solve comes to an answer that its log accounts for

A solve is a chain of stages, and whatever it is handed, it ends with a step or with an error of the
library: a shape that does not fit is found by the checks that come first, before an entry is read
outside of it, and from there on the matrices have their shapes by type. Of the two places after the
elimination at which its factors may have no answer, neither is ever reached, because the pivots
have passed their check (`Solver.isSome_solve?`).

The log tells how a solve ended. An error that blames the system is warned of once, an error that
blames the call is not recorded, and a step is recorded once if the settings ask for it
(`Answer.levelsOf`). A stage that passes writes nothing, so the log of a chain is the log of the
stage that ends it (`Answer.Settled.bind`).
-/

namespace InteriorPoint

open Scalar

/-- **The errors that are warned of**: those that blame the system and not the call. -/
def Error.warned {α : Type} : Error α → Bool
  | .singularSystem _ | .notPositiveDefinite _ => true
  | _ => false

namespace Answer

variable {α β γ : Type} {verbose : Bool}

/-- **The levels of the records that belong to an outcome**: one warning for an error that is
warned of, one debug record for a value if records are asked for, and nothing else. -/
def levelsOf (verbose : Bool) : Except (Failure α) β → List Level
  | .ok _ => if verbose then [.debug] else []
  | .error (.error e) => if e.warned then [.warn] else []
  | .error _ => []

/-- **An outcome that is decided**: a value or an error of the library. The other failures stand for
an access outside of a shape or a computation that did not end. -/
def Decided (o : Except (Failure α) β) : Prop := (∃ b, o = .ok b) ∨ ∃ e, o = .error (.error e)

/-- A chain of stages is decided if each of them is. -/
theorem Decided.bind {o : Except (Failure α) β} {f : β → Except (Failure α) γ} (ho : Decided o)
    (hf : ∀ b, o = .ok b → Decided (f b)) : Decided (o.bind f) := by
  obtain ⟨b, rfl⟩ | ⟨e, rfl⟩ := ho
  · exact hf b rfl
  · exact Or.inr ⟨e, rfl⟩

/-- **An answer that is settled**: its outcome is decided, it is not that of an elimination that has
passed its check and gives no answer, and its log is the one that belongs to it. -/
structure Settled (verbose : Bool) (x : Answer α β) : Prop where
  /-- The answer is a value or an error of the library. -/
  decided : Decided x.outcome
  /-- It is not the error that is never reached. -/
  answered : x.outcome ≠ .error (.error (.singularSystem .zeroPivot))
  /-- The records. -/
  levels : x.log.map Record.level = levelsOf verbose x.outcome

namespace Settled

/-- A value without records is settled, if no records are asked for. -/
theorem pure (b : β) : Settled false (Pure.pure b : Answer α β) where
  decided := Or.inl ⟨b, rfl⟩
  answered := nofun
  levels := rfl

/-- A refusal that blames the call is settled. -/
theorem refuse {e : Error α} (he : e.warned = false) :
    Settled verbose (Answer.refuse e : Answer α β) where
  decided := Or.inr ⟨e, rfl⟩
  answered h := by
    obtain rfl := Failure.error.inj (Except.error.inj h)
    exact nomatch he
  levels := (if_neg (Bool.eq_false_iff.mp he)).symm

/-- A refusal that blames the system is settled by one warning. -/
theorem warn {r : Record α} {e : Error α} (hr : r.level = .warn) (he : e.warned = true)
    (hne : e ≠ .singularSystem .zeroPivot) :
    Settled verbose (do record r; Answer.refuse e : Answer α β) where
  decided := Or.inr ⟨e, rfl⟩
  answered h := hne (Failure.error.inj (Except.error.inj h))
  levels := (congrArg (fun level => [level]) hr).trans (if_pos he).symm

/-- A value is settled by one debug record, if records are asked for. -/
theorem debug {r : Record α} (hr : r.level = .debug) (b : β) :
    Settled verbose (do
      if verbose then record r
      return b : Answer α β) := by
  cases verbose with
  | false => exact pure b
  | true => exact ⟨Or.inl ⟨b, rfl⟩, nofun, congrArg (fun level => [level]) hr⟩

/-- A check without records is settled if it blames the call only. -/
theorem ofExcept {x : Except (Error α) β} (hx : ∀ e, x = .error e → e.warned = false) :
    Settled false (Answer.ofExcept x) := by
  cases x with
  | ok b => exact pure b
  | error e => exact refuse (hx e rfl)

/-- **A stage that passes writes nothing**, so a chain of settled stages is settled, with the
records of the stage that ends it. -/
theorem bind {x : Answer α β} {f : β → Answer α γ} (hx : Settled false x)
    (hf : ∀ b, x.outcome = .ok b → Settled verbose (f b)) : Settled verbose (x >>= f) := by
  obtain ⟨log, o⟩ := x
  cases o with
  | error e =>
    obtain ⟨b, hb⟩ | ⟨e', he'⟩ := hx.decided
    · exact nomatch hb
    · obtain rfl := Except.error.inj he'
      exact ⟨Or.inr ⟨e', rfl⟩, fun h => hx.answered (congrArg Except.error (Except.error.inj h)),
        hx.levels⟩
  | ok b =>
    have hlog : log = [] := List.map_eq_nil_iff.mp hx.levels
    rw [hlog, bind_ok, List.nil_append]
    exact hf b rfl

/-- So is a sequence of checks without records, each of which is settled. -/
theorem forM {f : β → Except (Failure α) Unit} (hf : ∀ b, Settled false (ofOutcome (f b)))
    (l : List β) : Settled false (ofOutcome (l.forM f)) := by
  induction l with
  | nil => exact pure ()
  | cons b l ih =>
    have hcons : ofOutcome ((b :: l).forM f)
        = ofOutcome (f b) >>= fun _ => ofOutcome (l.forM f) := by
      show ofOutcome (f b >>= fun _ => l.forM f) = _
      cases f b <;> rfl
    rw [hcons]
    exact (hf b).bind fun _ _ => ih

end Settled

end Answer

/-! ## The stages of a solve -/

/-- Settings that are refused blame the call. -/
theorem Settings.warned_of_validate_eq_error {α : Type} [Scalar α] {s : Settings α} {e : Error α}
    (h : s.validate = .error e) : e.warned = false := by
  obtain ⟨cause, rfl⟩ := exists_of_validate_eq_error h
  rfl

namespace Dense

variable {α : Type} {n p : ℕ}

/-- So does a shape that does not fit. -/
theorem warned_of_shaped_eq_error {m : Dense α} {rows cols : ℕ} {e : Error α}
    (h : m.shaped rows cols = .error e) : e.warned = false := by
  unfold shaped at h
  split_ifs at h
  · rw [← Except.error.inj h]
    rfl
  · rw [← Except.error.inj h]
    rfl

variable [Scalar α]

/-- **The check of a transpose reads no entry outside a shape**, if the shapes fit: it passes or
blames the call. -/
theorem settled_checkTranspose (A : Mat α p n) (T : Mat α n p) (tolerance : α) :
    (Answer.ofOutcome (checkTranspose (ofMat A) (ofMat T) tolerance)).Settled false := by
  refine Answer.Settled.forM (fun b : Fin p × Fin n => ?_) _
  obtain ⟨i, j⟩ := b
  show (Answer.ofOutcome (checkTransposed (ofMat A) (ofMat T) tolerance i j)).Settled false
  unfold checkTransposed
  rw [get?_ofMat]
  dsimp only
  split_ifs
  · exact Answer.Settled.refuse rfl
  · exact Answer.Settled.pure ()

end Dense

namespace Solver

variable {α : Type} [Scalar α] {n p : ℕ}

/-- **The inertia check** is settled, if the eigenvalues that it asks for are found. -/
theorem settled_checkInertia {s : Solver α} {K : Mat α (n + p) (n + p)}
    (hspectrum : s.settings.checkInertia = true → ∃ d, s.spectrum? K = some d) :
    (s.checkInertia n p K).Settled false := by
  unfold checkInertia
  split_ifs with hcheck
  · obtain ⟨d, hd⟩ := hspectrum hcheck
    rw [hd]
    dsimp only
    unfold Inertia.check
    dsimp only
    split_ifs
    · exact Answer.Settled.warn rfl rfl nofun
    · exact Answer.Settled.warn rfl rfl nofun
    · exact Answer.Settled.pure ()
  · exact Answer.Settled.pure ()

/-- **The check of the pivots** is settled. -/
theorem settled_checkPivots (s : Solver α) {m : ℕ} (F : Lu α m) :
    (s.checkPivots F).Settled false := by
  unfold checkPivots
  dsimp only
  split_ifs
  · exact Answer.Settled.warn rfl rfl nofun
  · exact Answer.Settled.pure ()

/-- **A block solve** is settled, if the eigenvalues are found: after the check of the pivots there
is an answer. -/
theorem settled_solveBlock [OrderRules α] {s : Solver α} (hvalid : s.settings.validate = .ok ())
    {H : Mat α n n} {A : Mat α p n} {T : Mat α n p}
    (hspectrum : ∃ d, s.spectrum? (s.blockMatrix H A T) = some d) (g : Vec α n) (r : Vec α p) :
    (s.solveBlock H A T g r).Settled s.settings.verbose := by
  unfold solveBlock
  refine (settled_checkInertia fun _ => hspectrum).bind fun _ _ => ?_
  refine (settled_checkPivots s _).bind fun _ hpivots => ?_
  obtain ⟨x, hx⟩ := Option.isSome_iff_exists.mp
    (isSome_solve? hvalid hpivots (Block.rightSide g r))
  dsimp only
  rw [hx]
  exact Answer.Settled.debug rfl _

/-- **A reduced solve** is settled. -/
theorem settled_solveDense (s : Solver α) (H : Mat α n n) (g : Vec α n) :
    (s.solveDense H g).Settled s.settings.verbose := by
  unfold solveDense
  split
  · exact Answer.Settled.warn rfl rfl nofun
  · exact Answer.Settled.debug rfl _

/-- **A solve under equations** is settled, if the eigenvalues are found. -/
theorem settled_solve [OrderRules α] {s : Solver α}
    (hspectrum : ∀ {m : ℕ} (K : Mat α m m), 0 < m → ∃ d, s.spectrum? K = some d) (h a t : Dense α)
    (g : Vec α n) (r : Vec α p) : (s.solve h a t g r).Settled s.settings.verbose := by
  unfold solve
  refine (Answer.Settled.ofExcept fun e => Settings.warned_of_validate_eq_error).bind
    fun _ hvalid => ?_
  have hvalid := Answer.outcome_ofExcept_eq_ok.mp hvalid
  split_ifs with hn
  · exact Answer.Settled.refuse rfl
  refine (Answer.Settled.ofExcept fun e => Dense.warned_of_shaped_eq_error).bind fun H hH => ?_
  refine (Answer.Settled.ofExcept fun e => Dense.warned_of_shaped_eq_error).bind fun A hA => ?_
  refine (Answer.Settled.ofExcept fun e => Dense.warned_of_shaped_eq_error).bind fun T hT => ?_
  obtain rfl := Dense.shaped_eq_ok.mp (Answer.outcome_ofExcept_eq_ok.mp hA)
  obtain rfl := Dense.shaped_eq_ok.mp (Answer.outcome_ofExcept_eq_ok.mp hT)
  refine (Dense.settled_checkTranspose A T _).bind fun _ _ => ?_
  exact settled_solveBlock hvalid (hspectrum _ (Nat.add_pos_left (Nat.pos_of_ne_zero hn) p)) g r

/-- **A solve without equations** is settled. -/
theorem settled_solveReduced (s : Solver α) (h : Dense α) (g : Vec α n) :
    (s.solveReduced h g).Settled s.settings.verbose := by
  unfold solveReduced
  refine (Answer.Settled.ofExcept fun e => Settings.warned_of_validate_eq_error).bind fun _ _ => ?_
  split_ifs
  · exact Answer.Settled.refuse rfl
  refine (Answer.Settled.ofExcept fun e => Dense.warned_of_shaped_eq_error).bind fun H _ => ?_
  exact settled_solveDense s H g

end Solver

/-- **Every solve comes to an answer.** Whatever the settings and the shapes, both solves end with a
step or with an error of the library, never that of an elimination without an answer, and their logs
are those that belong to it: one warning for a system that is singular or not positive definite, one
debug record for a step if the settings are verbose, and nothing otherwise. With valid settings the
factors of every matrix that passes the check of the pivots answer every right-hand side, so no
refinement ends for want of an answer. Of the eigenvalues it is used that some are found for every
matrix that is not empty. -/
theorem totality_law {α : Type} [Scalar α] [OrderRules α] (s : Solver α)
    (hspectrum : ∀ {m : ℕ} (K : Mat α m m), 0 < m → ∃ d, s.spectrum? K = some d) :
    (∀ {n p : ℕ} (h a t : Dense α) (g : Vec α n) (r : Vec α p),
      (s.solve h a t g r).Settled s.settings.verbose) ∧
    (∀ {n : ℕ} (h : Dense α) (g : Vec α n),
      (s.solveReduced h g).Settled s.settings.verbose) ∧
    (s.settings.validate = .ok () → ∀ {m : ℕ} (K : Mat α m m),
      (s.checkPivots (Lu.factor K)).outcome = .ok () →
        ∀ b, ((Lu.factor K).solve? b).isSome) :=
  ⟨Solver.settled_solve hspectrum, Solver.settled_solveReduced s,
    fun hvalid _ _ hK b => Solver.isSome_solve? hvalid hK b⟩

/-- The law for more equations than variables, for a Hessian that is not square, and for the factors
of the identity. -/
theorem totality_law_overdetermined :
    (∀ {m : ℕ} (K : Mat ℝ m m), 0 < m → ∃ d, Solver.spectral.spectrum? K = some d) ∧
    (Solver.spectral.solve (.ofMat Solver.planar) (.ofMat (Mat.zero : Mat ℝ 3 2))
      (.ofMat (Mat.zero : Mat ℝ 2 3)) #v[3, 4] (#v[0, 0, 0] : Vec ℝ 3)).Settled false ∧
    (Solver.spectral.solveReduced (.ofMat (Mat.zero : Mat ℝ 2 3)) #v[3, 4]).Settled false ∧
    ∀ b, ((Lu.factor Solver.planar).solve? b).isSome := by
  have hspectrum : ∀ {m : ℕ} (K : Mat ℝ m m), 0 < m → ∃ d, Solver.spectral.spectrum? K = some d :=
    fun _ _ => ⟨_, rfl⟩
  obtain ⟨hblock, hreduced, hsolve⟩ := totality_law Solver.spectral hspectrum
  exact ⟨hspectrum, hblock _ _ _ _ _, hreduced _ _,
    hsolve Settings.validate_default _ Solver.outcome_checkPivots_identity⟩

end InteriorPoint

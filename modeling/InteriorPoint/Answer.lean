import InteriorPoint.Error
import InteriorPoint.Record

/-!
# Answers

An answer is what an evaluation comes to, a value or a failure, together with the records that
were written on the way. The records stand beside the outcome, not inside it: a failure does not
take back what was written before it.

Answers are sequenced from left to right. The log of a sequence is the log of its first part,
followed, if that part has a value, by the log of the second (`log_bind_ok`, `bind_error`).
-/

namespace InteriorPoint

/-- A value or a failure, and the records written on the way to it. -/
structure Answer (α β : Type) where
  /-- The records, in order. -/
  log : List (Record α)
  /-- The value, or why there is none. -/
  outcome : Except (Failure α) β

namespace Answer

variable {α β γ : Type}

/-- The answer that is a value, without records. -/
protected def pure (b : β) : Answer α β := { log := [], outcome := .ok b }

/-- One answer after another, which may use the value of the first. -/
protected def bind (x : Answer α β) (f : β → Answer α γ) : Answer α γ :=
  match x.outcome with
  | .ok b =>
    let y := f b
    { log := x.log ++ y.log, outcome := y.outcome }
  | .error e => { log := x.log, outcome := .error e }

instance : Monad (Answer α) where
  pure := Answer.pure
  bind := Answer.bind

/-- The answer that fails, without records. -/
def fail (e : Failure α) : Answer α β := { log := [], outcome := .error e }

/-- The answer that refuses an argument. -/
def refuse (e : Error α) : Answer α β := fail (.error e)

/-- The answer that writes one record. -/
def record (r : Record α) : Answer α Unit := { log := [r], outcome := .ok () }

/-- The answer of a check that writes no records. -/
def ofExcept : Except (Error α) β → Answer α β
  | .ok b => .pure b
  | .error e => refuse e

/-- The answer with a given outcome and no records. -/
def ofOutcome (o : Except (Failure α) β) : Answer α β := { log := [], outcome := o }

/-- **The outcome as a value.** The records stay, and a failure no longer stops what follows. -/
def attempt (x : Answer α β) : Answer α (Except (Failure α) β) :=
  { log := x.log, outcome := .ok x.outcome }

/-! ## Sequencing -/

@[simp]
theorem pure_eq (b : β) : (pure b : Answer α β) = ⟨[], .ok b⟩ := rfl

@[simp]
theorem bind_ok (l : List (Record α)) (b : β) (f : β → Answer α γ) :
    (⟨l, .ok b⟩ : Answer α β) >>= f = ⟨l ++ (f b).log, (f b).outcome⟩ := rfl

@[simp]
theorem bind_error (l : List (Record α)) (e : Failure α) (f : β → Answer α γ) :
    (⟨l, .error e⟩ : Answer α β) >>= f = ⟨l, .error e⟩ := rfl

/-- The log of a sequence whose first part has a value. -/
theorem log_bind_ok {x : Answer α β} {b : β} (h : x.outcome = .ok b) (f : β → Answer α γ) :
    (x >>= f).log = x.log ++ (f b).log := by
  obtain ⟨l, o⟩ := x
  cases h
  rfl

/-- The outcome of a sequence is that of its second part at the value of the first. -/
theorem outcome_bind (x : Answer α β) (f : β → Answer α γ) :
    (x >>= f).outcome = x.outcome.bind fun b => (f b).outcome := by
  obtain ⟨l, o⟩ := x
  cases o <;> rfl

/-- A sequence has a value exactly if its first part has one and its second part has it there. -/
theorem outcome_bind_eq_ok {x : Answer α β} {f : β → Answer α γ} {c : γ} :
    (x >>= f).outcome = .ok c ↔ ∃ b, x.outcome = .ok b ∧ (f b).outcome = .ok c := by
  obtain ⟨l, o⟩ := x
  cases o with
  | error e => simp
  | ok b => simp

theorem bind_pure (x : Answer α β) : (x >>= pure) = x := by
  obtain ⟨l, o⟩ := x
  cases o <;> simp

theorem bind_assoc {δ : Type} (x : Answer α β) (f : β → Answer α γ) (g : γ → Answer α δ) :
    (x >>= f) >>= g = x >>= fun b => f b >>= g := by
  obtain ⟨l, o⟩ := x
  cases o with
  | error e => simp
  | ok b =>
    rcases hf : f b with ⟨l', o'⟩
    cases o' <;> simp [hf]

instance : LawfulMonad (Answer α) :=
  LawfulMonad.mk' _ (fun x => bind_pure x) (fun b f => by simp) (fun x f g => bind_assoc x f g)

end Answer

end InteriorPoint

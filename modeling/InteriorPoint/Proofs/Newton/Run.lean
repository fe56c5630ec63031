import InteriorPoint.Newton.Descent
import InteriorPoint.Proofs.Kkt.Outcome

/-!
# Runs of the damped Newton iteration

A run is a sequence of rounds, each of which finds a step that is not small enough to stop and moves
along it (`Newton.Round`, `Newton.Run`). What every round keeps, a run keeps
(`Newton.Run.preserves`).

An iteration always comes to an end, whatever fails on the way, and the points at which the
iterations with all limits end are exactly those that the runs reach (`Newton.exists_finish`,
`Newton.Run.exists_finish`). So what holds along every run holds of the iteration, and the other way
round.
-/

namespace InteriorPoint

namespace Newton

variable {α : Type} [Scalar α] {n : ℕ} {s : Solver α} {eq : Option (Equations α)} {f : Smooth α n}
  {tolerance : α}

/-- **One round** of an iteration: a step from `x` whose decrement is above the tolerance, and the
point that the line search reaches along it. -/
def Round (s : Solver α) (eq : Option (Equations α)) (f : Smooth α n) (tolerance : α)
    (x y : Array α) : Prop :=
  ∃ g step, (direction s eq f x).outcome = .ok (g, step) ∧
    ¬ step.decrementSquared / Scalar.two ≤ tolerance ∧ (advance f x g step.v).outcome = .ok y

/-- **A run** of a number of rounds from a point to another one. -/
inductive Run (s : Solver α) (eq : Option (Equations α)) (f : Smooth α n) (tolerance : α) :
    ℕ → Array α → Array α → Prop
  /-- No rounds. -/
  | stay (x : Array α) : Run s eq f tolerance 0 x x
  /-- A round before a run. -/
  | round {k : ℕ} {x y z : Array α} (hround : Round s eq f tolerance x y)
      (hrun : Run s eq f tolerance k y z) : Run s eq f tolerance (k + 1) x z

/-- A round after a run. -/
theorem Run.snoc {k : ℕ} {x y z : Array α} (hrun : Run s eq f tolerance k x y)
    (hround : Round s eq f tolerance y z) : Run s eq f tolerance (k + 1) x z := by
  induction hrun with
  | stay => exact .round hround (.stay z)
  | round hfirst _ ih => exact .round hfirst (ih hround)

/-- **What every round keeps, a run keeps.** A round may be taken to begin where a run leads from
the start. -/
theorem Run.preserves {P : Array α → Prop} {k : ℕ} {x y : Array α}
    (hrun : Run s eq f tolerance k x y) (hx : P x)
    (hkeeps : ∀ k w z, Run s eq f tolerance k x w → P w → Round s eq f tolerance w z → P z) :
    P y := by
  induction hrun with
  | stay => exact hx
  | round hround _ ih =>
    exact ih (hkeeps 0 _ _ (.stay _) hx hround) fun k w z hrun =>
      hkeeps (k + 1) w z (.round hround hrun)

/-! ## The end of an iteration -/

/-- **What an iteration comes to**, round by round. -/
theorem outcome_iterate (remaining done : ℕ) (x : Array α) :
    (iterate s eq f tolerance remaining done x).outcome =
      match (direction s eq f x).outcome with
      | .error e => .ok { point := x, outcome := .error e }
      | .ok (g, step) =>
        if step.decrementSquared / Scalar.two ≤ tolerance then
          .ok { point := x, outcome := .ok (done, step.decrementSquared) }
        else
          match remaining with
          | 0 => .ok { point := x, outcome := .ok (done, step.decrementSquared) }
          | remaining + 1 =>
            match (advance f x g step.v).outcome with
            | .error e => .ok { point := x, outcome := .error e }
            | .ok y => (iterate s eq f tolerance remaining (done + 1) y).outcome := by
  rw [iterate.eq_def, Answer.outcome_bind]
  show (match (direction s eq f x).outcome with
      | .error e => _
      | .ok (g, step) => _ : Answer α (Finish α)).outcome = _
  cases (direction s eq f x).outcome with
  | error e => rfl
  | ok r =>
    obtain ⟨g, step⟩ := r
    dsimp only
    split_ifs
    · rfl
    · cases remaining with
      | zero => rfl
      | succ remaining =>
        dsimp only
        rw [Answer.outcome_bind]
        show (match (advance f x g step.v).outcome with
            | .error e => _
            | .ok y => _ : Answer α (Finish α)).outcome = _
        cases (advance f x g step.v).outcome with
        | error e => rfl
        | ok y => rfl

/-- An iteration with no rounds left ends where it is. -/
theorem exists_finish_iterate_zero (done : ℕ) (x : Array α) :
    ∃ finish, (iterate s eq f tolerance 0 done x).outcome = .ok finish ∧ finish.point = x := by
  rw [outcome_iterate]
  cases (direction s eq f x).outcome with
  | error e => exact ⟨_, rfl, rfl⟩
  | ok r =>
    dsimp only
    split_ifs
    · exact ⟨_, rfl, rfl⟩
    · exact ⟨_, rfl, rfl⟩

/-- A round that is left is made. -/
theorem outcome_iterate_of_round {x y : Array α} (hround : Round s eq f tolerance x y)
    (remaining done : ℕ) :
    (iterate s eq f tolerance (remaining + 1) done x).outcome
      = (iterate s eq f tolerance remaining (done + 1) y).outcome := by
  obtain ⟨g, step, hdirection, hlarge, hadvance⟩ := hround
  rw [outcome_iterate, hdirection]
  dsimp only
  rw [if_neg hlarge, hadvance]

/-- With rounds left, an iteration makes one or ends where it is. -/
theorem round_or_exists_finish (remaining done : ℕ) (x : Array α) :
    (∃ y, Round s eq f tolerance x y) ∨
      ∃ finish, (iterate s eq f tolerance (remaining + 1) done x).outcome = .ok finish ∧
        finish.point = x := by
  rw [outcome_iterate]
  cases hdirection : (direction s eq f x).outcome with
  | error e => exact Or.inr ⟨_, rfl, rfl⟩
  | ok r =>
    obtain ⟨g, step⟩ := r
    dsimp only
    split_ifs with hsmall
    · exact Or.inr ⟨_, rfl, rfl⟩
    · cases hadvance : (advance f x g step.v).outcome with
      | error e => exact Or.inr ⟨_, rfl, rfl⟩
      | ok y => exact Or.inl ⟨y, g, step, hdirection, hsmall, hadvance⟩

/-- An iteration ends at a point that a run of at most as many rounds as were left reaches. -/
theorem exists_finish_iterate (remaining done : ℕ) (x : Array α) :
    ∃ finish k, (iterate s eq f tolerance remaining done x).outcome = .ok finish ∧
      k ≤ remaining ∧ Run s eq f tolerance k x finish.point := by
  induction remaining generalizing done x with
  | zero =>
    obtain ⟨finish, hfinish, rfl⟩ := exists_finish_iterate_zero done x
    exact ⟨finish, 0, hfinish, Nat.le_refl 0, .stay _⟩
  | succ remaining ih =>
    obtain ⟨y, hround⟩ | ⟨finish, hfinish, rfl⟩ := round_or_exists_finish remaining done x
    · obtain ⟨finish, k, hfinish, hk, hrun⟩ := ih (done + 1) y
      exact ⟨finish, k + 1, (outcome_iterate_of_round hround remaining done).trans hfinish,
        Nat.succ_le_succ hk, .round hround hrun⟩
    · exact ⟨finish, 0, hfinish, Nat.zero_le _, .stay _⟩

/-- **An iteration always ends**, at a point that a run of at most as many rounds as its limit
reaches. -/
theorem exists_finish (s : Solver α) (eq : Option (Equations α)) (f : Smooth α n) (tolerance : α)
    (limit : ℕ) (x : Array α) :
    ∃ finish k, (minimize s eq f tolerance limit x).outcome = .ok finish ∧ k ≤ limit ∧
      Run s eq f tolerance k x finish.point :=
  exists_finish_iterate limit 0 x

/-- What a run reaches, the iteration with as many rounds left ends at. -/
theorem Run.exists_finish_iterate {k : ℕ} {x y : Array α} (hrun : Run s eq f tolerance k x y)
    (done : ℕ) :
    ∃ finish, (iterate s eq f tolerance k done x).outcome = .ok finish ∧ finish.point = y := by
  induction hrun generalizing done with
  | stay x => exact exists_finish_iterate_zero done x
  | round hround _ ih =>
    rw [outcome_iterate_of_round hround]
    exact ih (done + 1)

/-- **Every point that a run reaches is the end of an iteration**, the one with the number of rounds
as its limit. -/
theorem Run.exists_finish {k : ℕ} {x y : Array α} (hrun : Run s eq f tolerance k x y) :
    ∃ finish, (minimize s eq f tolerance k x).outcome = .ok finish ∧ finish.point = y :=
  hrun.exists_finish_iterate 0

/-! ## A round -/

/-- **A round at a stored point**: the step, and the step length that its line search finds. -/
theorem round_iff {x : Vec α n} {y : Array α} :
    Round s eq f tolerance x.toArray y ↔ ∃ g step σ,
      (direction s eq f x.toArray).outcome = .ok (g, step) ∧
      ¬ step.decrementSquared / Scalar.two ≤ tolerance ∧
      (({} : LineSearch α).stepLength f x g step.v).outcome = .ok σ ∧
      y = (Vec.addScaled σ step.v x).toArray := by
  have hadvance : ∀ g v : Vec α n, (advance f x.toArray g v).outcome = .ok y ↔
      ∃ σ, (({} : LineSearch α).stepLength f x g v).outcome = .ok σ ∧
        y = (Vec.addScaled σ v x).toArray := by
    intro g v
    unfold advance
    rw [Smooth.point_toArray, pure_bind, Answer.outcome_bind_eq_ok]
    refine exists_congr fun σ => and_congr_right fun _ => ?_
    obtain ⟨x, rfl⟩ := x
    rw [move, dif_pos rfl]
    exact ⟨fun h => (Except.ok.inj h).symm, fun h => congrArg Except.ok h.symm⟩
  unfold Round
  refine exists_congr fun g => exists_congr fun step => ?_
  rw [hadvance, ← exists_and_left]
  simp only [exists_and_left]

end Newton

end InteriorPoint

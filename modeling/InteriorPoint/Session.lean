import InteriorPoint.Function.Component
import InteriorPoint.Newton.Descent

/-!
# Sessions

A session works on one barrier: it holds the barrier, a point, the settings of the solver and the
last direction, and takes commands one by one. Each command has a reply of its own. A command
that fails leaves the session as it was, except that a Newton iteration keeps the point it has
reached.
-/

namespace InteriorPoint

/-- The state of a session on a barrier over functions of `n` variables. -/
structure Session (α : Type) [Scalar α] (n : Nat) where
  /-- The barrier. -/
  barrier : Barrier α n
  /-- The point, of any length. -/
  point : Array α
  /-- The solver. -/
  solver : Solver α
  /-- The equations on the steps, if there are any. -/
  equations : Option (Equations α)
  /-- The last direction that was found. -/
  direction : Option (Vec α n) := none

/-- The commands of a session. -/
inductive Command (α : Type) [Scalar α] where
  /-- Set the weight of the barrier. -/
  | weight (t : α)
  /-- Make the barrier the objective of a new one. -/
  | wrap (t : α) (constraints : List (FunctionSpec α))
  /-- Replace the settings of the solver. -/
  | settings (s : Settings α)
  /-- Replace the point. -/
  | setPoint (x : Array α)
  /-- Evaluate the barrier at the point. -/
  | evaluate
  /-- Find the Newton step at the point, and keep its direction. -/
  | direction
  /-- Move the point along the last direction. -/
  | move (s : α)
  /-- Search along the last direction. -/
  | lineSearch (l : LineSearch α)
  /-- Iterate Newton steps. -/
  | newton (limit : Nat) (tolerance : α)

/-- The replies to commands. -/
inductive Reply (α : Type) [Scalar α] (n : Nat) where
  /-- The new weight, and the bound on the duality gap there. -/
  | weight (t bound : α)
  /-- The new barrier. -/
  | barrier (φ : Barrier α n)
  /-- The new settings. -/
  | settings (s : Settings α)
  /-- The new point. -/
  | point (x : Array α)
  /-- The evaluation of the barrier. -/
  | evaluation (e : Evaluation α)
  /-- The Newton step. -/
  | step (s : Step α n)
  /-- The step length. -/
  | stepLength (s : α)
  /-- The end of an iteration: the number of steps, the point and the last squared decrement. -/
  | newton (steps : Nat) (x : Array α) (decrementSquared : α)

namespace Session

variable {α : Type} [Scalar α] {n : Nat}

/-- **A session on the barrier with the given parts**, which are made in the order in which they
are listed, the objective first. -/
def start (objective : FunctionSpec α) (constraints : List (FunctionSpec α)) (t : α)
    (point : Array α) (settings : Settings α) (equations : Option (Equations α)) :
    Except (Failure α) ((n : Nat) × Session α n) := do
  let objective ← objective.make
  let constraints ← FunctionSpec.makeAll constraints
  let φ ← FunctionSpec.refusing
    (Barrier.compose t objective.smooth (constraints.map Component.any))
  return ⟨objective.dim,
    { barrier := φ, point := point, solver := { settings := settings }, equations := equations }⟩

/-- The last direction, which has to exist. -/
def lastDirection (σ : Session α n) : Answer α (Vec α n) :=
  match σ.direction with
  | some v => pure v
  | none => Answer.fail .noDirection

/-- A barrier whose objective is the session's barrier. -/
def wrapped (σ : Session α n) (t : α) (constraints : List (FunctionSpec α)) :
    Except (Failure α) (Barrier α n) := do
  let constraints ← FunctionSpec.makeAll constraints
  FunctionSpec.refusing
    (Barrier.compose t σ.barrier.toSmooth (constraints.map Component.any))

/-- The session with another barrier. -/
def withBarrier (σ : Session α n) (φ : Barrier α n) : Session α n := { σ with barrier := φ }

/-- A reply and the state after it; if there is a failure instead, the failure and the state as it
was. -/
def orStay (σ : Session α n) (x : Answer α (Reply α n × Session α n)) :
    Answer α (Except (Failure α) (Reply α n) × Session α n) := do
  match ← x.attempt with
  | .ok (reply, σ') => return (.ok reply, σ')
  | .error e => return (.error e, σ)

/-- **One command**: the reply to it and the state after it. -/
def respond (σ : Session α n) :
    Command α → Answer α (Except (Failure α) (Reply α n) × Session α n)
  | .weight t => σ.orStay do
    let φ ← Answer.ofExcept (σ.barrier.withWeight t)
    return (.weight φ.weight φ.dualityGapBound, σ.withBarrier φ)
  | .wrap t constraints => σ.orStay do
    let φ ← Answer.ofOutcome (σ.wrapped t constraints)
    return (.barrier φ, σ.withBarrier φ)
  | .settings s =>
    pure (.ok (.settings s), { σ with solver := { σ.solver with settings := s } })
  | .setPoint x => pure (.ok (.point x), { σ with point := x })
  | .evaluate => σ.orStay do
    let e ← (Component.barrier σ.barrier).evaluate σ.point
    return (.evaluation e, σ)
  | .direction => σ.orStay do
    let (_, step) ← Newton.direction σ.solver σ.equations σ.barrier.toSmooth σ.point
    return (.step step, { σ with direction := some step.v })
  | .move s => σ.orStay do
    let v ← σ.lastDirection
    let x ← Newton.move s v σ.point
    return (.point x, { σ with point := x })
  | .lineSearch l => σ.orStay do
    let g ← σ.barrier.gradient σ.point
    let v ← σ.lastDirection
    let x ← Smooth.point n σ.point
    return (.stepLength (← l.stepLength σ.barrier.toSmooth x g v), σ)
  | .newton limit tolerance => do
    let finish ←
      Newton.minimize σ.solver σ.equations σ.barrier.toSmooth tolerance limit σ.point
    return (finish.outcome.map fun (steps, d) => .newton steps finish.point d,
      { σ with point := finish.point })

/-- **The replies to a list of commands**, in order. -/
def run (σ : Session α n) : List (Command α) → Answer α (List (Except (Failure α) (Reply α n)))
  | [] => pure []
  | c :: cs => do
    let (reply, σ) ← σ.respond c
    return reply :: (← run σ cs)

end Session

end InteriorPoint

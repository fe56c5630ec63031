import InteriorPoint.Kkt.Solver
import InteriorPoint.Newton.LineSearch

/-!
# Damped Newton iteration

The minimization of a smooth function under linear equations by Newton steps with a line search.
Before each step the iteration ends if half the squared decrement is small enough, or if the limit
of iterations is reached; it fails if an evaluation or a solve does. In every case the point that
was reached is part of the result.
-/

namespace InteriorPoint

/-- Linear equations on the Newton steps: their matrix and their residual. -/
structure Equations (α : Type) where
  /-- The matrix. -/
  matrix : Dense α
  /-- The residual. -/
  residual : Array α

namespace Newton

variable {α : Type} [Scalar α] {n : Nat}

/-- A Newton step at a gradient and a Hessian, under equations if there are any. -/
def stepAt (s : Solver α) (eq : Option (Equations α)) (g : Vec α n) (H : Mat α n n) :
    Answer α (Step α n) :=
  match eq with
  | some eq =>
    s.solve (Dense.ofMat H) eq.matrix (Dense.transpose eq.matrix) g
      (⟨eq.residual, rfl⟩ : Vec α eq.residual.size)
  | none => s.solveReduced (Dense.ofMat H) g

/-- The gradient of a function at a point, and the Newton step there. -/
def direction (s : Solver α) (eq : Option (Equations α)) (f : Smooth α n) (x : Array α) :
    Answer α (Vec α n × Step α n) := do
  let g ← f.gradient x
  let H ← f.hessian x
  return (g, ← stepAt s eq g H)

/-- The point `s·v + x`; a point of another length than the direction is out of range. -/
def move (s : α) (v : Vec α n) (x : Array α) : Answer α (Array α) :=
  if h : x.size = n then pure (Vec.addScaled s v ⟨x, h⟩).toArray else Answer.fail .outOfRange

/-- The point that a line search reaches from `x` along a direction. -/
def advance (f : Smooth α n) (x : Array α) (g v : Vec α n) : Answer α (Array α) := do
  let s ← ({} : LineSearch α).stepLength f (← Smooth.point n x) g v
  move s v x

/-- The end of an iteration: the point that was reached, and how many iterations were made with
the squared decrement of the last solve, or the failure that ended it. -/
structure Finish (α : Type) where
  /-- The point that was reached. -/
  point : Array α
  /-- The number of iterations and the last squared decrement. -/
  outcome : Except (Failure α) (Nat × α)

/-- **The iteration from a point on**, with at most `remaining` further steps, after `done` steps
were made. -/
def iterate (s : Solver α) (eq : Option (Equations α)) (f : Smooth α n) (tolerance : α) :
    (remaining : Nat) → (done : Nat) → (x : Array α) → Answer α (Finish α)
  | remaining, done, x => do
    match ← (direction s eq f x).attempt with
    | .error e => return { point := x, outcome := .error e }
    | .ok (g, step) =>
      if step.decrementSquared / Scalar.two ≤ tolerance then
        return { point := x, outcome := .ok (done, step.decrementSquared) }
      else
        match remaining with
        | 0 => return { point := x, outcome := .ok (done, step.decrementSquared) }
        | remaining + 1 =>
          match ← (advance f x g step.v).attempt with
          | .error e => return { point := x, outcome := .error e }
          | .ok y => iterate s eq f tolerance remaining (done + 1) y

/-- The iteration from a point, with a limit on the number of steps. -/
def minimize (s : Solver α) (eq : Option (Equations α)) (f : Smooth α n) (tolerance : α)
    (limit : Nat) (x : Array α) : Answer α (Finish α) :=
  iterate s eq f tolerance limit 0 x

end Newton

end InteriorPoint

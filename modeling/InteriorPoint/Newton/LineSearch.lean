import InteriorPoint.Function.Smooth

/-!
# Backtracking line search

From a point `x` along a direction `v` the step length starts at one and is multiplied by a factor
until the value has gone down far enough or the step length has reached a floor. "Far enough" is a
fraction of what the slope at `x` promises. The value is computed at every trial point, also at
the one where the floor ends the search.

The value may be infinite, so a trial point outside the domain of a barrier is turned down. The
floor accepts the last trial point as it is.
-/

namespace InteriorPoint

/-- The parameters of a line search. -/
structure LineSearch (α : Type) [Scalar α] where
  /-- The fraction of the promised decrease that has to be reached. -/
  fraction : α := Scalar.ratio 1 4
  /-- The factor between one step length and the next. -/
  factor : α := Scalar.half
  /-- The step length at which the search ends in any case. -/
  floor : α := Scalar.tenth 10
  /-- The number of trials after which the search is given up, should it end neither way. -/
  trials : Nat := 1000000

namespace LineSearch

variable {α : Type} [Scalar α] {n : Nat}

/-- The trial point `x + v·s`. -/
def trial (x v : Vec α n) (s : α) : Vec α n := Vec.add x (Vec.scale v s)

/-- **The search from step length `s` on**, in at most `fuel` trials, for a function of the trial
points, its value `fx` at `x` and the slope. -/
def search (l : LineSearch α) (value : Array α → Answer α α) (x v : Vec α n) (fx slope : α) :
    (fuel : Nat) → (s : α) → Answer α α
  | 0, _ => Answer.fail .unfinished
  | fuel + 1, s => do
    let y ← value (trial x v s).toArray
    if fx + l.fraction * s * slope < y ∧ l.floor < s then
      search l value x v fx slope fuel (s * l.factor)
    else return s

/-- The step length that the search finds from step length one on, for a function whose gradient
at `x` is `g`. -/
def stepLength (l : LineSearch α) (f : Smooth α n) (x g v : Vec α n) : Answer α α := do
  let fx ← f.value x.toArray
  l.search f.value x v fx (Vec.dot g v) l.trials 1

end LineSearch

end InteriorPoint

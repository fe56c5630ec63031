import InteriorPoint.Function.Barrier
import InteriorPoint.Function.Quadratic
import InteriorPoint.Function.Quartic

/-!
# Functions by kind

A component is a function together with what it was made as: a quadratic function, a barrier, or
a function given by formulas of its own. A specification says how to make one, from the data of
quadratic functions up through barriers of any depth.
-/

namespace InteriorPoint

/-- A function of some number of variables, with its kind. -/
inductive Component (α : Type) [Scalar α] where
  /-- A quadratic function. -/
  | quadratic {n : Nat} (q : Quadratic α n)
  /-- A barrier. -/
  | barrier {n : Nat} (φ : Barrier α n)
  /-- A function given by formulas of its own. -/
  | formula {n : Nat} (f : Smooth α n)

/-- What an evaluation of a function at a point came to, part by part. -/
structure Evaluation (α : Type) where
  /-- The value. -/
  value : Except (Failure α) α
  /-- The gradient. -/
  gradient : Except (Failure α) (Array α)
  /-- The Hessian. -/
  hessian : Except (Failure α) (Dense α)
  /-- Strict feasibility, of a barrier. -/
  feasible : Option (Except (Failure α) Bool)

namespace Component

variable {α : Type} [Scalar α]

/-- The number of variables. -/
def dim : Component α → Nat
  | @quadratic _ _ n _ | @barrier _ _ n _ | @formula _ _ n _ => n

/-- The function itself. -/
def smooth : (f : Component α) → Smooth α f.dim
  | .quadratic q => q.toSmooth
  | .barrier φ => φ.toSmooth
  | .formula f => f

/-- The function as a pair of its number of variables and itself. -/
def any (f : Component α) : (n : Nat) × Smooth α n := ⟨f.dim, f.smooth⟩

/-- The test for strict feasibility, which only barriers have. -/
def feasible (x : Array α) : Component α → Answer α (Option (Except (Failure α) Bool))
  | .barrier φ => some <$> (φ.isStrictlyFeasible x).attempt
  | _ => pure none

/-- **Everything that can be asked of a function at a point**: value, gradient, Hessian and, for a
barrier, strict feasibility, in this order. A part that fails does not keep the next ones from
being evaluated. -/
def evaluate (f : Component α) (x : Array α) : Answer α (Evaluation α) := do
  let value ← (f.smooth.value x).attempt
  let gradient ← (f.smooth.gradient x).attempt
  let hessian ← (f.smooth.hessian x).attempt
  let feasible ← f.feasible x
  return { value, gradient := gradient.map Vector.toArray, hessian := hessian.map Dense.ofMat,
           feasible }

end Component

/-! ## Specifications -/

/-- **How to make a function.** -/
inductive FunctionSpec (α : Type) where
  /-- A quadratic function with a dense quadratic term. -/
  | dense (a : Dense α) (b : Array α) (c : α)
  /-- A quadratic function whose quadratic term is given by its rows. -/
  | rows (a : List (Array α)) (b : Array α) (c : α)
  /-- An affine function. -/
  | linear (b : Array α) (c : α)
  /-- A quadratic function whose quadratic term is given by the entries of its upper triangle. -/
  | upper (n : UInt64) (entries : List (Triplet α)) (b : Array α) (c : α)
  /-- A quadratic function whose quadratic term is given as a sparse matrix. -/
  | sparse (p : Sparse α) (b : Array α) (c : α)
  /-- A barrier, afterwards set to each of the further weights in turn. -/
  | barrier (t : α) (objective : FunctionSpec α) (constraints : List (FunctionSpec α))
      (weights : List α)
  /-- The quartic function with the wrong Hessian. -/
  | quarticSaddle
  /-- The quartic constraint. -/
  | quarticBall

namespace FunctionSpec

variable {α : Type} [Scalar α]

/-- An error as a failure. -/
def refusing {β : Type} : Except (Error α) β → Except (Failure α) β
  | .ok b => .ok b
  | .error e => .error (.error e)

/-- The barrier over given components, set to each of the further weights in turn. -/
def makeBarrier (t : α) (objective : Component α) (constraints : List (Component α))
    (weights : List α) : Except (Error α) (Barrier α objective.dim) := do
  let φ ← Barrier.compose t objective.smooth (constraints.map Component.any)
  weights.foldlM Barrier.withWeight φ

mutual

/-- **The function that a specification describes**, or the first refusal on the way: the parts
of a barrier are made before the barrier, the objective first. -/
def make : FunctionSpec α → Except (Failure α) (Component α)
  | .dense a b c => refusing ((Quadratic.ofDense a b c).map .quadratic)
  | .rows a b c => refusing ((Quadratic.ofRows a b c).map .quadratic)
  | .linear b c => refusing ((Quadratic.linear b c).map .quadratic)
  | .upper n entries b c => do
    let p ← refusing (Sparse.upperTriangle n entries)
    return .quadratic (← Quadratic.ofUpper p b c)
  | .sparse p b c => (Quadratic.ofUpper p b c).map .quadratic
  | .barrier t objective constraints weights => do
    let objective ← make objective
    let constraints ← makeAll constraints
    refusing ((makeBarrier t objective constraints weights).map .barrier)
  | .quarticSaddle => .ok (.formula Quartic.saddle)
  | .quarticBall => .ok (.formula Quartic.ball)

/-- The functions that the specifications of a list describe, in order. -/
def makeAll : List (FunctionSpec α) → Except (Failure α) (List (Component α))
  | [] => .ok []
  | s :: ss => do return (← make s) :: (← makeAll ss)

end

end FunctionSpec

end InteriorPoint

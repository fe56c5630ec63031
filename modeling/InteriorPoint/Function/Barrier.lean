import InteriorPoint.Function.Smooth
import InteriorPoint.Linear.Dense

/-!
# Logarithmic barriers

A barrier folds the constraints `fᵢ(x) < 0` into an objective `f₀`:

  `φ(x) = t·f₀(x) − ∑ᵢ log(−fᵢ(x))`

for a weight `t ≥ 0`; with `t = 0` only the constraints count. The value is infinite outside the
strict interior `{x | fᵢ(x) < 0 for all i}`, so that a line search turns back, and the first
constraint that is not strictly satisfied is recorded. The derivatives

* `∇φ = t·∇f₀ + ∑ᵢ (−1/fᵢ)·∇fᵢ`
* `∇²φ = t·∇²f₀ + ∑ᵢ (∇fᵢ∇fᵢᵀ/fᵢ² − ∇²fᵢ/fᵢ)`

are not guarded: outside the interior they are what the formulas come to.

A barrier is a smooth function again (`Barrier.toSmooth`) and may be the objective or a constraint
of another one. It evaluates its components whenever it needs them, so a component that is a
barrier itself writes its own records each time.
-/

namespace InteriorPoint

/-- A barrier over functions of `n` variables. -/
structure Barrier (α : Type) [Scalar α] (n : Nat) where
  /-- The weight of the objective. -/
  weight : α
  /-- The objective. -/
  objective : Smooth α n
  /-- The constraints, in order. -/
  constraints : List (Smooth α n)
  /-- The weight is neither infinite nor undefined. -/
  weight_finite : Scalar.isFinite weight = true
  /-- The weight is not negative. -/
  weight_not_neg : ¬ weight < 0

namespace Barrier

variable {α : Type} [Scalar α] {n : Nat}

/-! ## Construction -/

/-- The barrier at a weight, unless the weight is negative, infinite or undefined. -/
def ofWeight (t : α) (objective : Smooth α n) (constraints : List (Smooth α n)) :
    Except (Error α) (Barrier α n) :=
  if hf : Scalar.isFinite t = true then
    if hn : t < 0 then .error (.invalidArgument (.weight t))
    else
      .ok { weight := t, objective := objective, constraints := constraints
            weight_finite := hf, weight_not_neg := hn }
  else .error (.invalidArgument (.weight t))

/-- A function of any number of variables as one of `n` variables, if that is what it is. -/
def component (n : Nat) (f : (m : Nat) × Smooth α m) : Except (Error α) (Smooth α n) :=
  match f with
  | ⟨m, f⟩ => if h : m = n then .ok (h ▸ f) else .error (.dimensionMismatch n m)

/-- **The barrier over functions of any number of variables.** The weight is looked at first;
then the first constraint that has not as many variables as the objective is refused. -/
def compose (t : α) (objective : Smooth α n) (constraints : List ((m : Nat) × Smooth α m)) :
    Except (Error α) (Barrier α n) := do
  let φ ← ofWeight t objective []
  let constraints ← constraints.mapM (component n)
  return { φ with constraints := constraints }

/-- The barrier at another weight. -/
def withWeight (φ : Barrier α n) (t : α) : Except (Error α) (Barrier α n) :=
  ofWeight t φ.objective φ.constraints

/-- The upper bound `m/t` on the distance of a minimizer of the barrier from the optimal value,
for `m` constraints; zero if there are none. -/
def dualityGapBound (φ : Barrier α n) : α :=
  if φ.constraints.length = 0 then 0 else (φ.constraints.length : α) / φ.weight

/-! ## Evaluation -/

/-- A value that does not satisfy a constraint strictly: at least zero, or undefined. -/
def violates (v : α) : Prop := Scalar.isNaN v = true ∨ 0 ≤ v

instance (v : α) : Decidable (violates v) := inferInstanceAs (Decidable (_ ∨ _))

/-- The logarithms of the constraints taken off a value, in list order, where `i` is the number
of the first constraint of the list. The first violated constraint is recorded, and makes the
result infinite. -/
def subtractLogs (x : Array α) : (i : Nat) → List (Smooth α n) → α → Answer α α
  | _, [], v => pure v
  | i, f :: fs, v => do
    let u ← f.value x
    if violates u then do
      Answer.record (.outsideDomain i u)
      return Scalar.infinity
    else subtractLogs x (i + 1) fs (v - Scalar.log (-u))

/-- The value of the barrier. -/
def value (φ : Barrier α n) (x : Array α) : Answer α α := do
  let _ ← Smooth.point n x
  let v ← φ.objective.value x
  subtractLogs x 0 φ.constraints (φ.weight * v)

/-- The contribution of a constraint added to a gradient. -/
def addGradient (x : Array α) (g : Vec α n) (f : Smooth α n) : Answer α (Vec α n) := do
  let z := -1 / (← f.value x)
  let d ← f.gradient x
  return Vec.addScaled z d g

/-- The gradient of the barrier. -/
def gradient (φ : Barrier α n) (x : Array α) : Answer α (Vec α n) := do
  let _ ← Smooth.point n x
  let g ← φ.objective.gradient x
  φ.constraints.foldlM (addGradient x) (Vec.scale g φ.weight)

/-- The rank-one term and the curvature term of a constraint with value `v`, gradient `d` and
Hessian `K`, added to a Hessian. -/
def addCurvature (H : Mat α n n) (v : α) (d : Vec α n) (K : Mat α n n) : Mat α n n :=
  Mat.of fun j k =>
    Mat.entry H j k + (d.get j * d.get k / (v * v) - Mat.entry K j k / v)

/-- The contribution of a constraint added to a Hessian. -/
def addHessian (x : Array α) (H : Mat α n n) (f : Smooth α n) : Answer α (Mat α n n) := do
  let v ← f.value x
  let d ← f.gradient x
  let K ← f.hessian x
  return addCurvature H v d K

/-- The Hessian of the barrier. -/
def hessian (φ : Barrier α n) (x : Array α) : Answer α (Mat α n n) := do
  let _ ← Smooth.point n x
  let H ← φ.objective.hessian x
  φ.constraints.foldlM (addHessian x) (Mat.mapEntries (· * φ.weight) H)

/-- All constraints of a list strictly satisfied, tested in order up to the first that is not. -/
def allSatisfied (x : Array α) : List (Smooth α n) → Answer α Bool
  | [] => pure true
  | f :: fs => do
    let u ← f.value x
    if u < 0 then allSatisfied x fs else return false

/-- True if every constraint is strictly satisfied. -/
def isStrictlyFeasible (φ : Barrier α n) (x : Array α) : Answer α Bool := do
  let _ ← Smooth.point n x
  allSatisfied x φ.constraints

/-- **A barrier as a smooth function**, ready to be a component of another barrier. -/
def toSmooth (φ : Barrier α n) : Smooth α n where
  value := φ.value
  gradient := φ.gradient
  hessian := φ.hessian

end Barrier

end InteriorPoint

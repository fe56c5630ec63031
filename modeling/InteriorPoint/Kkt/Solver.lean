import InteriorPoint.Answer
import InteriorPoint.Kkt.Block
import InteriorPoint.Kkt.Inertia
import InteriorPoint.Kkt.Refinement
import InteriorPoint.Kkt.Settings
import InteriorPoint.Linear.Cholesky
import InteriorPoint.Linear.Dense
import InteriorPoint.Linear.Lu
import InteriorPoint.Linear.Spectrum

/-!
# Newton steps

A Newton step of a function with gradient `g` and Hessian `H` under linear equations with matrix
`A` and residual `r` is the solution `v`, with multipliers `w`, of

  `⎡ H  Aᵀ ⎤ ⎡ v ⎤   ⎡ -g ⎤`
  `⎣ A  0  ⎦ ⎣ w ⎦ = ⎣ -r ⎦`

and without equations of `H·v = -g`. The block system is solved by elimination with row exchanges
(`Solver.solve`), after a check of the signs of its eigenvalues; the reduced one by a square-root
factorization (`Solver.solveReduced`). Both factor a regularized matrix and refine against the
system itself.

The eigenvalues are a stage that a solver brings along, so that what the check means can be said
of any way of computing them. Every refusal of a system comes with exactly one warning.
-/

namespace InteriorPoint

/-- A Newton step of a function of `n` variables. -/
structure Step (α : Type) (n : Nat) where
  /-- The direction. -/
  v : Vec α n
  /-- The multipliers of the equations, if the step was solved with equations. -/
  w : Option (Array α)
  /-- The square of the Newton decrement. -/
  decrementSquared : α

/-- The Newton decrement: a squared decrement that is negative or undefined counts as zero. -/
def newtonDecrement {α : Type} [Scalar α] (decrementSquared : α) : α :=
  Scalar.sqrt (Scalar.larger decrementSquared 0)

/-- **A solver**: its settings and its way to the eigenvalues of a symmetric matrix. -/
structure Solver (α : Type) [Scalar α] where
  /-- The settings. -/
  settings : Settings α
  /-- The eigenvalues of the symmetric matrix with a given lower triangle, if they are found. -/
  spectrum? : {n : Nat} → Mat α n n → Option (Vec α n) := Spectrum.eigenvalues?

namespace Solver

variable {α : Type} [Scalar α] {n p : Nat}

/-! ## With equations -/

/-- The inertia check of a block matrix, if the settings ask for it. -/
def checkInertia (s : Solver α) (n p : Nat) (K : Mat α (n + p) (n + p)) : Answer α Unit :=
  if s.settings.checkInertia then
    match s.spectrum? K with
    | some d => Inertia.check s.settings.pivotTolerance n p d.toList
    | none => Answer.fail .outOfRange
  else pure ()

/-- The check of the pivots: the smallest has to exceed the tolerance against the largest. -/
def checkPivots (s : Solver α) {m : Nat} (F : Lu α m) : Answer α Unit :=
  let pivots := F.pivots.toList
  let largest := Vec.largestAbs pivots
  let smallest := Vec.smallestAbs pivots
  if Scalar.isNaN smallest = true ∨ smallest ≤ s.settings.pivotTolerance * largest then do
    Answer.record (.smallPivot smallest largest)
    Answer.refuse (.singularSystem (.pivot smallest s.settings.pivotTolerance largest))
  else pure ()

/-- The Newton step under equations, for matrices of matching shapes. -/
def solveBlock (s : Solver α) (H : Mat α n n) (A : Mat α p n) (T : Mat α n p) (g : Vec α n)
    (r : Vec α p) : Answer α (Step α n) := do
  let K := Block.assemble H A T
  let regular := Block.regularize s.settings.regularization K
  s.checkInertia n p regular
  let F := Lu.factor regular
  s.checkPivots F
  let b := Block.rightSide g r
  match F.solve? b with
  | none => Answer.refuse (.singularSystem .zeroPivot)
  | some x => do
    let x := refine K b F.solve? s.settings.refinements x
    if s.settings.verbose then
      Answer.record
        (.blockSolved n p s.settings.regularization (Mat.residualNorm K x b))
    let v := Block.head x
    return { v := v, w := some (Block.tail x).toArray
             decrementSquared := Vec.dot v (Mat.mulVec H v) }

/-- **The Newton step under equations.** The settings are checked first; then there has to be a
variable; then come the shapes of `h`, `a` and `t`, and that `t` is the transpose of `a`. -/
def solve (s : Solver α) (h a t : Dense α) (g : Vec α n) (r : Vec α p) : Answer α (Step α n) := do
  Answer.ofExcept s.settings.validate
  if n = 0 then Answer.refuse .zeroDimension
  else
    let H ← Answer.ofExcept (h.shaped n n)
    let A ← Answer.ofExcept (a.shaped p n)
    let T ← Answer.ofExcept (t.shaped n p)
    Answer.ofOutcome (Dense.checkTranspose a t Dense.symmetryTolerance)
    s.solveBlock H A T g r

/-! ## Without equations -/

/-- The Newton step without equations, for a Hessian of matching shape. -/
def solveDense (s : Solver α) (H : Mat α n n) (g : Vec α n) : Answer α (Step α n) :=
  match Cholesky.factor? (Block.shiftDiagonal s.settings.regularization H) with
  | none => do
    Answer.record (.indefinite n)
    Answer.refuse (.notPositiveDefinite (.pivot n))
  | some F => do
    let b := Vec.neg g
    let v := refine H b (fun b => some (F.solve b)) s.settings.refinements (F.solve b)
    let decrementSquared := -Vec.dot g v
    if s.settings.verbose then
      Answer.record
        (.reducedSolved n s.settings.regularization (Mat.residualNorm H v b) decrementSquared)
    return { v := v, w := none, decrementSquared := decrementSquared }

/-- **The Newton step without equations.** The settings are checked first; then there has to be a
variable; then comes the shape of `h`. -/
def solveReduced (s : Solver α) (h : Dense α) (g : Vec α n) : Answer α (Step α n) := do
  Answer.ofExcept s.settings.validate
  if n = 0 then Answer.refuse .zeroDimension
  else
    let H ← Answer.ofExcept (h.shaped n n)
    s.solveDense H g

end Solver

end InteriorPoint

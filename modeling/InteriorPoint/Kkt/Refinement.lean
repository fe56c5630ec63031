import InteriorPoint.Linear.Mat

/-!
# Iterative refinement

A solution of a system is improved by solving for its residual. The residual is taken of the
system itself, while the solver may belong to a nearby one.
-/

namespace InteriorPoint

variable {α : Type} [Scalar α] {n : Nat}

/-- **Refinement** of `x` as a solution of `M·x = b`, in at most the given number of steps. It ends
early when the residual is zero, or when the residual cannot be solved for. -/
def refine (M : Mat α n n) (b : Vec α n) (solve : Vec α n → Option (Vec α n)) :
    (steps : Nat) → (x : Vec α n) → Vec α n
  | 0, x => x
  | steps + 1, x =>
    let residual := Vec.sub b (Mat.mulVec M x)
    if Vec.norm residual == 0 then x
    else
      match solve residual with
      | some d => refine M b solve steps (Vec.add x d)
      | none => x

end InteriorPoint

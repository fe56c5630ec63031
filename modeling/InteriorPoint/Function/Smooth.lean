import InteriorPoint.Answer
import InteriorPoint.Linear.Mat

/-!
# Twice differentiable functions

A function of `n` variables is given by its value, its gradient and its Hessian. Each takes a
point of any length and may fail, for instance at a point of another length than `n`; a gradient
always has length `n` and a Hessian is always `n × n`. That the gradient is the derivative of the
value and the Hessian that of the gradient is a contract, not part of the type.
-/

namespace InteriorPoint

/-- A function of `n` variables with its first two derivatives. -/
structure Smooth (α : Type) (n : Nat) where
  /-- The value at a point. -/
  value : Array α → Answer α α
  /-- The gradient at a point. -/
  gradient : Array α → Answer α (Vec α n)
  /-- The Hessian at a point. -/
  hessian : Array α → Answer α (Mat α n n)

namespace Smooth

variable {α : Type} {n : Nat}

/-- The number of variables. -/
def dim (_ : Smooth α n) : Nat := n

/-- The point as a vector of length `n`; a point of another length is a failure that names both
lengths. -/
def point (n : Nat) (x : Array α) : Answer α (Vec α n) :=
  if h : x.size = n then pure ⟨x, h⟩ else Answer.fail (.wrongLength x.size n)

@[simp]
theorem point_toArray (x : Vec α n) : point n x.toArray = pure x := by
  obtain ⟨x, rfl⟩ := x
  simp [point]

theorem point_of_size_ne {x : Array α} (h : x.size ≠ n) :
    point n x = Answer.fail (.wrongLength x.size n) :=
  dif_neg h

/-- The function given by three formulas on vectors of length `n`, which need no records and
refuse points of another length. -/
def ofFormulas (value : Vec α n → α) (gradient : Vec α n → Vec α n)
    (hessian : Vec α n → Mat α n n) : Smooth α n where
  value x := do return value (← point n x)
  gradient x := do return gradient (← point n x)
  hessian x := do return hessian (← point n x)

end Smooth

end InteriorPoint

/-!
# Errors

What a constructor or a solver refuses, as causes with the data that the refusal names. Scalars
in a cause stay scalars; their decimal text is a matter of the messages, which are written in one
place for the scalars that run.
-/

namespace InteriorPoint

/-- Why an argument is refused. -/
inductive InvalidArgument (α : Type) where
  /-- A barrier weight is negative, infinite or undefined. -/
  | weight (t : α)
  /-- A regularization is negative, infinite or undefined. -/
  | regularization (value : α)
  /-- A pivot tolerance is not positive, infinite or undefined. -/
  | pivotTolerance (value : α)
  /-- An entry of one matrix differs from the transposed entry of the other. -/
  | notTransposed (row col : Nat) (entry transposed : α)
  /-- An entry of an upper triangle lies below the diagonal. -/
  | belowDiagonal (row col : Nat)
  /-- A reason given in words. -/
  | other (text : String)

/-- Why a system counts as singular. -/
inductive SingularSystem (α : Type) where
  /-- Some of the eigenvalues are zero up to the tolerance. -/
  | eigenvalues (count size : Nat) (tolerance : α)
  /-- The smallest pivot is too small against the largest one. -/
  | pivot (smallest tolerance largest : α)
  /-- A pivot is zero. -/
  | zeroPivot
  /-- A reason given in words. -/
  | other (text : String)

/-- Why a Hessian counts as not positive definite. -/
inductive NotPositiveDefinite where
  /-- The signs of the eigenvalues are not those of `n` variables and `p` equations. -/
  | inertia (positive negative n p : Nat)
  /-- A square-root factorization of a matrix of size `n` has a pivot that is not positive. -/
  | pivot (n : Nat)
  /-- A reason given in words. -/
  | other (text : String)

/-- **The errors of the library.** A point outside the domain of a barrier is none of them. -/
inductive Error (α : Type) where
  /-- Two dimensions that must agree do not. -/
  | dimensionMismatch (expected actual : Nat)
  /-- A function without variables. -/
  | zeroDimension
  /-- The first entry that differs from its transposed one by more than a tolerance. -/
  | notSymmetric (row col : Nat) (tolerance : α)
  /-- An argument that cannot be used. -/
  | invalidArgument (cause : InvalidArgument α)
  /-- A system that is singular to working precision. -/
  | singularSystem (cause : SingularSystem α)
  /-- A Hessian that is not positive definite where it has to be. -/
  | notPositiveDefinite (cause : NotPositiveDefinite)

/-- The ways in which an evaluation can end without a value. -/
inductive Failure (α : Type) where
  /-- An argument was refused. -/
  | error (e : Error α)
  /-- A point with `actual` coordinates was handed to a function of `expected` variables. -/
  | wrongLength (actual expected : Nat)
  /-- An index or a shape was outside the range of what it was applied to. -/
  | outOfRange
  /-- An iteration did not come to an end within its bound. -/
  | unfinished
  /-- A step was asked for before there was a direction. -/
  | noDirection

end InteriorPoint

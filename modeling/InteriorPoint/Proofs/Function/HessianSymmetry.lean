import InteriorPoint.Proofs.Function.ConstraintList
import InteriorPoint.Proofs.Function.WellFormed

/-!
# Hessians of barriers are symmetric

A Hessian of a barrier is made entry by entry: to each entry a constraint adds a product of two
components of its gradient, divided by the square of its value, and takes off an entry of its own
Hessian, divided by the value. The entry at the transposed position is made by the same operations,
on the same operands, except that the two components are multiplied in the other order. So the
Hessian is symmetric to the last bit after each constraint, over every scalar type whose products do
not depend on the order of their factors: rounding, infinities and undefined values do not get
between an entry and its transposed one, inside the domain or outside it (`symmetric_hessian_law`).
-/

namespace InteriorPoint

variable {n : ℕ}

/-- **A function with a symmetric Hessian** at a vector, at which it evaluates. -/
structure Smooth.SymmetricAt {α : Type} (f : Smooth α n) (x : Vec α n) : Prop
    extends f.EvaluatesAt x where
  /-- The Hessian is symmetric. -/
  isSymm {K : Mat α n n} (hK : (f.hessian x.toArray).outcome = .ok K) : K.toMatrix.IsSymm

/-- The Hessian of a quadratic function with a symmetric quadratic term is symmetric everywhere. -/
theorem Quadratic.symmetricAt {α : Type} [Scalar α] {q : Quadratic α n} (hq : q.a.toMatrix.IsSymm)
    (x : Vec α n) : q.toSmooth.SymmetricAt x where
  toEvaluatesAt := (Smooth.wellFormed_ofFormulas _ _ _).evaluatesAt x
  isSymm {K} hK := by
    obtain rfl : q.a = K := by
      have ha : (q.toSmooth.hessian x.toArray).outcome = .ok q.a :=
        congrArg Answer.outcome (Smooth.point_bind_toArray x _)
      exact Except.ok.inj (ha.symm.trans hK)
    exact hq

/-- A quadratic function with real terms has a symmetric Hessian at every vector. -/
theorem Quadratic.symmetricAt_ofTerms {α : Type} [Scalar α] [Exact α]
    {A : Matrix (Fin n) (Fin n) ℝ} (hn : 0 < n) (hA : A.IsSymm) (b : Fin n → ℝ) (c : ℝ)
    (x : Vec α n) : (ofTerms hn hA b c : Quadratic α n).toSmooth.SymmetricAt x := by
  refine symmetricAt (Matrix.IsSymm.ext fun i j => ?_) x
  show Mat.entry (Exact.mat A) j i = Mat.entry (Exact.mat A) i j
  rw [Exact.entry_mat, Exact.entry_mat, hA.apply]

/-- **The law of symmetric Hessians**, over scalars whose products commute: the Hessian of a barrier
exists and is symmetric at every vector, feasible or not, at which the leaves that it is built from,
to any depth, evaluate to symmetric Hessians. -/
theorem symmetric_hessian_law {α : Type} [Scalar α] (hcomm : ∀ a b : α, a * b = b * a)
    (φ : Barrier α n) (x : Vec α n)
    (h : ∀ f ∈ φ.objective :: φ.constraints, Composed (fun c => c.SymmetricAt x) f) :
    ∃ H, (φ.hessian x.toArray).outcome = .ok H ∧ ∀ j k, Mat.entry H j k = Mat.entry H k j := by
  obtain ⟨h₀, h⟩ := List.forall_mem_cons.mp h
  have hφ : Composed (fun c : Smooth α n => c.SymmetricAt x) φ.toSmooth := .barrier φ h₀ h
  obtain ⟨H, hH⟩ := (hφ.evaluatesAt fun c hc => hc.toEvaluatesAt).hessian
  have hsymm := hφ.isSymm_hessian hcomm (fun c hc K hK => hc.isSymm hK) hH
  exact ⟨H, hH, fun j k => hsymm.apply k j⟩

/-! ### On the boundary of an ellipse -/

namespace Barrier

theorem isSymm_tilted : (!![2, 1; 1, 2] : Matrix (Fin 2) (Fin 2) ℝ).IsSymm :=
  Matrix.IsSymm.ext fun i j => by fin_cases i <;> fin_cases j <;> rfl

/-- The function `x² + xy + y² + c`, whose Hessian is not diagonal. -/
noncomputable def tilted (c : ℝ) : Quadratic Extended 2 :=
  Quadratic.ofTerms Nat.two_pos isSymm_tilted 0 c

/-- The barrier of an ellipse, and the same barrier over it. -/
noncomputable def twiceInside : Barrier Extended 2 :=
  unweighted (unweighted (tilted 0).toSmooth [(tilted (-1)).toSmooth]).toSmooth
    [(tilted (-1)).toSmooth]

end Barrier

open Barrier

/-- The law on the boundary of an ellipse, where both barriers divide by zero. -/
theorem symmetric_hessian_law_boundary :
    (∀ a b : Extended, a * b = b * a) ∧ (tilted (-1)).toSmooth.HasValue ![1, 0] 0 ∧
    ∃ H, (twiceInside.hessian (Exact.vec ![1, 0] : Vec Extended 2).toArray).outcome = .ok H ∧
      Mat.entry H 0 1 = Mat.entry H 1 0 := by
  have hvalue : (tilted (-1)).toSmooth.HasValue ![1, 0]
      (Quadratic.valueOf !![2, 1; 1, 2] 0 (-1) ![1, 0]) :=
    Quadratic.hasValue_toSmooth rfl rfl rfl ![1, 0]
  have hboundary : Quadratic.valueOf !![2, 1; 1, 2] 0 (-1) ![1, 0] = 0 := by
    simp [Quadratic.valueOf, Matrix.mulVec, dotProduct, Fin.sum_univ_two]
  rw [hboundary] at hvalue
  have hleaf : ∀ c, Composed (fun f => f.SymmetricAt (Exact.vec ![1, 0])) (tilted c).toSmooth :=
    fun c => .leaf (Quadratic.symmetricAt_ofTerms _ _ _ _ _)
  have hconstraint : ∀ f ∈ [(tilted (-1)).toSmooth],
      Composed (fun f => f.SymmetricAt (Exact.vec ![1, 0])) f :=
    List.forall_mem_singleton.mpr (hleaf (-1))
  obtain ⟨H, hH, hentries⟩ := symmetric_hessian_law Extended.mul_comm twiceInside
    (Exact.vec ![1, 0]) (List.forall_mem_cons.mpr ⟨.barrier _ (hleaf 0) hconstraint, hconstraint⟩)
  exact ⟨Extended.mul_comm, hvalue, H, hH, hentries 0 1⟩

end InteriorPoint

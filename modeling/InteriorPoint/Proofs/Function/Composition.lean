import InteriorPoint.Proofs.Function.BarrierFolds
import InteriorPoint.Proofs.Linear.RealMatrix
import Mathlib.LinearAlgebra.Matrix.Symmetric

/-!
# Functions built from leaves

A barrier takes smooth functions, as its objective and as its constraints, and is a smooth function
again. So from a stock of leaves, for instance the quadratic functions, functions are built to any
depth (`Composed`), and what barriers keep holds of all of them as soon as it holds of the leaves:

* there is a value at every point of the right length (`Composed.exists_value`), and a gradient and
  a Hessian with it (`Composed.evaluatesAt`)
* the Hessian is exactly symmetric (`Composed.isSymm_hessian`), if the product of scalars does not
  depend on the order of its factors
-/

namespace InteriorPoint

variable {α : Type} [Scalar α] {n : ℕ}

/-- **A function built from leaves**: a leaf, or a barrier whose components are built from
leaves. -/
inductive Composed (leaf : Smooth α n → Prop) : Smooth α n → Prop
  /-- A leaf. -/
  | leaf {f : Smooth α n} (h : leaf f) : Composed leaf f
  /-- A barrier over functions that are built already. -/
  | barrier (φ : Barrier α n) (h₀ : Composed leaf φ.objective)
      (h : ∀ c ∈ φ.constraints, Composed leaf c) : Composed leaf φ.toSmooth

namespace Barrier

/-! ## Symmetry of the Hessian -/

variable (hcomm : ∀ a b : α, a * b = b * a)

include hcomm in
/-- What a constraint adds to a Hessian keeps it symmetric. -/
theorem isSymm_addCurvature {H K : Mat α n n} (hH : H.toMatrix.IsSymm) (hK : K.toMatrix.IsSymm)
    (v : α) (d : Vec α n) : (addCurvature H v d K).toMatrix.IsSymm := by
  refine Matrix.IsSymm.ext fun i j => ?_
  have hHij : Mat.entry H j i = Mat.entry H i j := hH.apply i j
  have hKij : Mat.entry K j i = Mat.entry K i j := hK.apply i j
  unfold addCurvature
  rw [Mat.toMatrix_of, Matrix.of_apply, Matrix.of_apply, hHij, hKij, hcomm]

include hcomm in
/-- What a list of constraints adds to a Hessian keeps it symmetric. -/
theorem isSymm_foldlM_addHessian {x : Array α} {cs : List (Smooth α n)}
    (hcs : ∀ c ∈ cs, ∀ K, (c.hessian x).outcome = .ok K → K.toMatrix.IsSymm) {H L : Mat α n n}
    (hH : H.toMatrix.IsSymm) (hL : (cs.foldlM (addHessian x) H).outcome = .ok L) :
    L.toMatrix.IsSymm := by
  induction cs generalizing H with
  | nil =>
    obtain rfl : H = L := Except.ok.inj hL
    exact hH
  | cons c cs ih =>
    obtain ⟨hc, hcs⟩ := List.forall_mem_cons.mp hcs
    rw [List.foldlM_cons] at hL
    obtain ⟨H', hH', hL⟩ := Answer.outcome_bind_eq_ok.mp hL
    obtain ⟨v, -, hH'⟩ := Answer.outcome_bind_eq_ok.mp hH'
    obtain ⟨d, -, hH'⟩ := Answer.outcome_bind_eq_ok.mp hH'
    obtain ⟨K, hK, hH'⟩ := Answer.outcome_bind_eq_ok.mp hH'
    obtain rfl := Except.ok.inj hH'
    exact ih hcs (isSymm_addCurvature hcomm hH (hc K hK) v d) hL

include hcomm in
/-- **The Hessian of a barrier is symmetric** if those of its components are. -/
theorem isSymm_hessian {φ : Barrier α n} {x : Array α}
    (h₀ : ∀ K, (φ.objective.hessian x).outcome = .ok K → K.toMatrix.IsSymm)
    (h : ∀ c ∈ φ.constraints, ∀ K, (c.hessian x).outcome = .ok K → K.toMatrix.IsSymm)
    {H : Mat α n n} (hH : (φ.hessian x).outcome = .ok H) : H.toMatrix.IsSymm := by
  obtain ⟨-, -, hH⟩ := Answer.outcome_bind_eq_ok.mp hH
  obtain ⟨K₀, hK₀, hH⟩ := Answer.outcome_bind_eq_ok.mp hH
  refine isSymm_foldlM_addHessian hcomm h (Matrix.IsSymm.ext fun i j => ?_) hH
  have hij : Mat.entry K₀ j i = Mat.entry K₀ i j := (h₀ K₀ hK₀).apply i j
  rw [Mat.toMatrix_apply, Mat.toMatrix_apply, Mat.entry_mapEntries, Mat.entry_mapEntries, hij]

end Barrier

namespace Composed

variable {leaf : Smooth α n → Prop} {f : Smooth α n}

/-- **A function that is built evaluates** at every vector at which the leaves do. -/
theorem evaluatesAt {x : Vec α n} (hleaf : ∀ f, leaf f → f.EvaluatesAt x) (hf : Composed leaf f) :
    f.EvaluatesAt x := by
  induction hf with
  | leaf hf => exact hleaf _ hf
  | barrier φ _ _ ih₀ ih => exact Barrier.evaluatesAt_toSmooth (List.forall_mem_cons.mpr ⟨ih₀, ih⟩)

/-- **A function that is built has a value** at every vector at which the leaves have one. -/
theorem exists_value {x : Vec α n}
    (hleaf : ∀ f, leaf f → ∃ v, (f.value x.toArray).outcome = .ok v) (hf : Composed leaf f) :
    ∃ v, (f.value x.toArray).outcome = .ok v := by
  induction hf with
  | leaf hf => exact hleaf _ hf
  | barrier φ _ _ ih₀ ih => exact Barrier.exists_outcome_value ih₀ ih

/-- **The Hessian of a function that is built is symmetric** if those of the leaves are, whether or
not the point is feasible. -/
theorem isSymm_hessian (hcomm : ∀ a b : α, a * b = b * a) {x : Array α}
    (hleaf : ∀ f, leaf f → ∀ K, (f.hessian x).outcome = .ok K → K.toMatrix.IsSymm)
    (hf : Composed leaf f) {H : Mat α n n} (hH : (f.hessian x).outcome = .ok H) :
    H.toMatrix.IsSymm := by
  induction hf generalizing H with
  | leaf hf => exact hleaf _ hf H hH
  | barrier φ _ _ ih₀ ih =>
    exact Barrier.isSymm_hessian hcomm (fun K hK => ih₀ hK) (fun c hc K hK => ih c hc hK) hH

end Composed

end InteriorPoint

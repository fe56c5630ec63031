import InteriorPoint.Proofs.Function.Composition
import InteriorPoint.Proofs.Function.RealPoint
import InteriorPoint.Proofs.Scalar.Finite

/-!
# Where the Hessian is finite, the gradient is

At a point on the boundary of its domain a barrier divides by the value of a constraint, which is
zero there: both derivatives leave the real numbers. In general the gradient of a barrier takes the
quotient of one by the value of each constraint, and the Hessian the quotient of the constraint's
Hessian by the same value. So a Hessian with real entries tells that the quotients are real numbers,
and the gradient is real as soon as those of the components are (`Composed.finiteGradientAt`).

The converse does not hold: the Hessian takes the square of the quotient as well.
-/

namespace InteriorPoint

open Scalar

variable {n : ℕ}

/-- A matrix with finite entries. -/
def Mat.Finite {m : ℕ} (M : Mat Extended m n) : Prop :=
  ∀ i j, isFinite (Mat.entry M i j) = true

/-- A vector with finite entries. -/
def Vec.Finite (v : Vec Extended n) : Prop := ∀ i, isFinite (v.get i) = true

namespace Smooth

/-- **The gradient is finite where the Hessian is**, at one point. -/
def FiniteGradientAt (f : Smooth Extended n) (x : Array Extended) : Prop :=
  ∀ g H, (f.gradient x).outcome = .ok g → (f.hessian x).outcome = .ok H → Mat.Finite H →
    Vec.Finite g

end Smooth

namespace Barrier

variable {x : Array Extended}

/-- **What a constraint adds to a finite Hessian**: the Hessian before and the one of the constraint
are finite, and so is every finite number divided by the value of the constraint. -/
theorem finite_of_addCurvature {H K : Mat Extended n n} {v : Extended} {d : Vec Extended n}
    (h : Mat.Finite (addCurvature H v d K)) :
    Mat.Finite H ∧ Mat.Finite K ∧ (0 < n → ∀ z, isFinite z = true → isFinite (z / v) = true) := by
  have hterms : ∀ i j, isFinite (Mat.entry H i j) = true ∧
      isFinite (Mat.entry K i j / v) = true := by
    intro i j
    have hentry := h i j
    unfold addCurvature at hentry
    rw [Mat.entry_of, Extended.isFinite_add, Extended.isFinite_sub] at hentry
    exact ⟨hentry.1, hentry.2.2⟩
  refine ⟨fun i j => (hterms i j).1, fun i j => (Extended.isFinite_div (hterms i j).2).1, ?_⟩
  exact fun hn => (Extended.isFinite_div (hterms ⟨0, hn⟩ ⟨0, hn⟩).2).2

/-- **The two loops over the constraints**, side by side: they end at a finite gradient and a finite
Hessian only if they start at such ones. -/
theorem finite_of_foldlM {cs : List (Smooth Extended n)} (hcs : ∀ c ∈ cs, c.FiniteGradientAt x)
    {g g' : Vec Extended n} {H H' : Mat Extended n n}
    (hg : (cs.foldlM (addGradient x) g).outcome = .ok g')
    (hH : (cs.foldlM (addHessian x) H).outcome = .ok H') (hfinite : Mat.Finite H') :
    Mat.Finite H ∧ (Vec.Finite g → Vec.Finite g') := by
  induction cs generalizing g H with
  | nil =>
    obtain rfl : g = g' := Except.ok.inj hg
    obtain rfl : H = H' := Except.ok.inj hH
    exact ⟨hfinite, id⟩
  | cons c cs ih =>
    obtain ⟨hc, hcs⟩ := List.forall_mem_cons.mp hcs
    rw [List.foldlM_cons] at hg hH
    obtain ⟨g₁, hg₁, hg⟩ := Answer.outcome_bind_eq_ok.mp hg
    obtain ⟨v, hv, hg₁⟩ := Answer.outcome_bind_eq_ok.mp hg₁
    obtain ⟨d, hd, hg₁⟩ := Answer.outcome_bind_eq_ok.mp hg₁
    obtain rfl := Except.ok.inj hg₁
    obtain ⟨H₁, hH₁, hH⟩ := Answer.outcome_bind_eq_ok.mp hH
    obtain ⟨v', hv', hH₁⟩ := Answer.outcome_bind_eq_ok.mp hH₁
    obtain ⟨d', hd', hH₁⟩ := Answer.outcome_bind_eq_ok.mp hH₁
    obtain ⟨K, hK, hH₁⟩ := Answer.outcome_bind_eq_ok.mp hH₁
    obtain rfl := Except.ok.inj hH₁
    obtain rfl := Except.ok.inj (hv.symm.trans hv')
    obtain rfl := Except.ok.inj (hd.symm.trans hd')
    obtain ⟨hbefore, hrest⟩ := ih hcs hg hH
    obtain ⟨hHfinite, hKfinite, hquotient⟩ := finite_of_addCurvature hbefore
    refine ⟨hHfinite, fun hgfinite => hrest fun i => ?_⟩
    have hone : isFinite (-1 : Extended) = true := rfl
    rw [Vec.get_addScaled, Extended.isFinite_add, Extended.isFinite_mul]
    exact ⟨⟨hquotient (Fin.pos i) _ hone, hc d K hd hK hKfinite i⟩, hgfinite i⟩

/-- **The gradient of a barrier is finite where its Hessian is**, if that holds of its
components. -/
theorem finiteGradientAt_toSmooth {φ : Barrier Extended n}
    (h₀ : φ.objective.FiniteGradientAt x) (h : ∀ c ∈ φ.constraints, c.FiniteGradientAt x) :
    φ.toSmooth.FiniteGradientAt x := by
  intro g H hg hH hfinite
  obtain ⟨-, -, hg⟩ := Answer.outcome_bind_eq_ok.mp hg
  obtain ⟨g₀, hg₀, hg⟩ := Answer.outcome_bind_eq_ok.mp hg
  obtain ⟨-, -, hH⟩ := Answer.outcome_bind_eq_ok.mp hH
  obtain ⟨H₀, hH₀, hH⟩ := Answer.outcome_bind_eq_ok.mp hH
  obtain ⟨hscaled, hrest⟩ := finite_of_foldlM h hg hH hfinite
  have hfinite₀ : Mat.Finite H₀ := by
    intro i j
    have hentry := hscaled i j
    rw [Mat.entry_mapEntries, Extended.isFinite_mul] at hentry
    exact hentry.1
  refine hrest fun i => ?_
  rw [Vec.get_scale, Extended.isFinite_mul]
  exact ⟨h₀ g₀ H₀ hg₀ hH₀ hfinite₀ i, φ.weight_finite⟩

end Barrier

/-- **So it is for functions that are built from leaves**, if it is for the leaves. -/
theorem Composed.finiteGradientAt {leaf : Smooth Extended n → Prop} {x : Array Extended}
    (hleaf : ∀ f, leaf f → f.FiniteGradientAt x) {f : Smooth Extended n} (hf : Composed leaf f) :
    f.FiniteGradientAt x := by
  induction hf with
  | leaf hf => exact hleaf _ hf
  | barrier φ _ _ ih₀ ih => exact Barrier.finiteGradientAt_toSmooth ih₀ ih

end InteriorPoint

import InteriorPoint.Proofs.Function.QuadraticFormulas

/-!
# How exactly a quadratic function expands

A quadratic function is its own expansion of second order if its quadratic term `A` is symmetric.
The test that `A` has to pass lets some asymmetry through, while the Hessian is `A` as it is and the
gradient is `Ax + b`. What the expansion at `x` then leaves of the value at `x + h` is computed here
on the nose,

  `½·∑ᵢⱼ (Aᵢⱼ − Aⱼᵢ)·xᵢ·hⱼ`

(`Quadratic.hasRemainder_toSmooth`). The diagonal does not contribute to it, and every other
position contributes no more than the tolerance (`Quadratic.abs_remainder_le`).
-/

open scoped Matrix

namespace InteriorPoint

open Exact

variable {n : ℕ}

namespace Smooth

variable {α : Type} [Scalar α] [Exact α] {f : Smooth α n} {x h : Fin n → ℝ}

/-- **What the expansion of second order at `x` leaves** of the value at `x + h`. -/
def HasRemainder (f : Smooth α n) (x h : Fin n → ℝ) (e : ℝ) : Prop :=
  ∃ (v v' : ℝ) (g : Fin n → ℝ) (K : Matrix (Fin n) (Fin n) ℝ), f.HasValue x v ∧
    f.HasValue (x + h) v' ∧ f.HasGradient x g ∧ f.HasHessian x K ∧
    v' - v - g ⬝ᵥ h - 1 / 2 * (h ⬝ᵥ K *ᵥ h) = e

/-- There is at most one remainder. -/
theorem HasRemainder.unique {e e' : ℝ} (he : f.HasRemainder x h e) (he' : f.HasRemainder x h e') :
    e = e' := by
  obtain ⟨v, w, g, K, hv, hw, hg, hK, rfl⟩ := he
  obtain ⟨v', w', g', K', hv', hw', hg', hK', rfl⟩ := he'
  obtain rfl := real_injective (Except.ok.inj (hv.symm.trans hv'))
  obtain rfl := real_injective (Except.ok.inj (hw.symm.trans hw'))
  obtain rfl := vec_injective (Except.ok.inj (hg.symm.trans hg'))
  obtain rfl := mat_injective (Except.ok.inj (hK.symm.trans hK'))
  rfl

end Smooth

namespace Quadratic

/-! ## The asymmetric part -/

variable (A : Matrix (Fin n) (Fin n) ℝ) (x h : Fin n → ℝ)

/-- What the order of two vectors makes for their product by a matrix. -/
theorem dotProduct_mulVec_sub_swap :
    x ⬝ᵥ A *ᵥ h - h ⬝ᵥ A *ᵥ x = ∑ i, ∑ j, (A i j - A j i) * x i * h j := by
  have hxh : x ⬝ᵥ A *ᵥ h = ∑ i, ∑ j, A i j * x i * h j := by
    simp only [dotProduct, Matrix.mulVec, Finset.mul_sum]
    exact Finset.sum_congr rfl fun i _ => Finset.sum_congr rfl fun j _ => by ring
  have hhx : h ⬝ᵥ A *ᵥ x = ∑ i, ∑ j, A j i * x i * h j := by
    simp only [dotProduct, Matrix.mulVec, Finset.mul_sum]
    rw [Finset.sum_comm]
    exact Finset.sum_congr rfl fun i _ => Finset.sum_congr rfl fun j _ => by ring
  rw [hxh, hhx, ← Finset.sum_sub_distrib]
  refine Finset.sum_congr rfl fun i _ => ?_
  rw [← Finset.sum_sub_distrib]
  exact Finset.sum_congr rfl fun j _ => by ring

variable {A} in
/-- The order does not matter for any two vectors exactly if the matrix is symmetric. -/
theorem forall_sum_eq_zero_iff :
    (∀ x h : Fin n → ℝ, ∑ i, ∑ j, (A i j - A j i) * x i * h j = 0) ↔ A.IsSymm := by
  refine ⟨fun hsum => Matrix.IsSymm.ext fun i j => ?_, fun hA x h => ?_⟩
  · have hij := (dotProduct_mulVec_sub_swap A (Pi.single j 1) (Pi.single i 1)).trans (hsum _ _)
    rw [single_one_dotProduct, single_one_dotProduct, Matrix.mulVec_single_one,
      Matrix.mulVec_single_one] at hij
    exact sub_eq_zero.mp hij
  · refine Finset.sum_eq_zero fun i _ => Finset.sum_eq_zero fun j _ => ?_
    rw [hA.apply i j, sub_self, zero_mul, zero_mul]

/-! ## The remainder -/

variable (q : Quadratic ℝ n)

/-- **The remainder of a quadratic function** is that of its asymmetry. -/
theorem hasRemainder_toSmooth : q.toSmooth.HasRemainder x h
    (1 / 2 * ∑ i, ∑ j, (Mat.entry q.a i j - Mat.entry q.a j i) * x i * h j) := by
  obtain ⟨hvalue, hgradient, hhessian⟩ := q.formulas_toSmooth x
  refine ⟨_, _, _, _, hvalue, (q.formulas_toSmooth (x + h)).1, hgradient, hhessian, ?_⟩
  have hasymmetry := dotProduct_mulVec_sub_swap q.a.toMatrix x h
  simp only [Mat.toMatrix_apply] at hasymmetry
  rw [valueOf_add, ← hasymmetry]
  ring

/-- **The remainder is within the tolerance**, taken off the diagonal. -/
theorem abs_remainder_le :
    |1 / 2 * ∑ i, ∑ j, (Mat.entry q.a i j - Mat.entry q.a j i) * x i * h j|
      ≤ 1 / 2 * (1 / 10 ^ 6) * ∑ i, ∑ j ∈ {i}ᶜ,
        max 1 (max |Mat.entry q.a i j| |Mat.entry q.a j i|) * |x i| * |h j| := by
  have hdiagonal : ∀ i, ∑ j, (Mat.entry q.a i j - Mat.entry q.a j i) * x i * h j
      = ∑ j ∈ {i}ᶜ, (Mat.entry q.a i j - Mat.entry q.a j i) * x i * h j := by
    intro i
    rw [Fintype.sum_eq_add_sum_compl i, sub_self, zero_mul, zero_mul, zero_add]
  rw [abs_mul, abs_of_pos one_half_pos, mul_assoc, Finset.mul_sum]
  refine mul_le_mul_of_nonneg_left ?_ one_half_pos.le
  calc |∑ i, ∑ j, (Mat.entry q.a i j - Mat.entry q.a j i) * x i * h j|
      ≤ ∑ i, |∑ j ∈ {i}ᶜ, (Mat.entry q.a i j - Mat.entry q.a j i) * x i * h j| := by
        simp only [hdiagonal]
        exact Finset.abs_sum_le_sum_abs _ _
    _ ≤ ∑ i, 1 / 10 ^ 6 * ∑ j ∈ {i}ᶜ,
          max 1 (max |Mat.entry q.a i j| |Mat.entry q.a j i|) * |x i| * |h j| := by
        refine Finset.sum_le_sum fun i _ => (Finset.abs_sum_le_sum_abs _ _).trans ?_
        rw [Finset.mul_sum]
        refine Finset.sum_le_sum fun j _ => ?_
        rw [abs_mul, abs_mul, mul_assoc, mul_assoc, ← mul_assoc (1 / 10 ^ 6 : ℝ), max_comm 1]
        exact mul_le_mul_of_nonneg_right (q.abs_sub_transposed_le i j) (by positivity)

end Quadratic

open Quadratic

/-- **The law of the quadratic expansion**, for every quadratic function, since every one has passed
the test of symmetry. What the expansion at `x` leaves of the value at `x + h` is that of the
asymmetry, it is at most what the tolerance lets through, and it vanishes everywhere exactly if the
quadratic term is symmetric. -/
theorem quadratic_expansion_law (q : Quadratic ℝ n) :
    (∀ x h : Fin n → ℝ, ∃ e, q.toSmooth.HasRemainder x h e ∧
      e = 1 / 2 * ∑ i, ∑ j, (Mat.entry q.a i j - Mat.entry q.a j i) * x i * h j ∧
      |e| ≤ 1 / 2 * (1 / 10 ^ 6) * ∑ i, ∑ j ∈ {i}ᶜ,
        max 1 (max |Mat.entry q.a i j| |Mat.entry q.a j i|) * |x i| * |h j|) ∧
    ((∀ x h : Fin n → ℝ, q.toSmooth.HasRemainder x h 0) ↔ q.a.toMatrix.IsSymm) := by
  refine ⟨fun x h => ⟨_, hasRemainder_toSmooth x h q, rfl, abs_remainder_le x h q⟩, ?_⟩
  rw [← forall_sum_eq_zero_iff]
  refine forall_congr' fun x => forall_congr' fun h => ⟨fun hzero => ?_, fun hzero => ?_⟩
  · have hhalf := hzero.unique (hasRemainder_toSmooth x h q)
    exact (mul_eq_zero.mp hhalf.symm).resolve_left one_half_pos.ne'
  · have hremainder := hasRemainder_toSmooth x h q
    rwa [show ∑ i, ∑ j, (Mat.entry q.a i j - Mat.entry q.a j i) * x i * h j = 0 from hzero,
      mul_zero] at hremainder

end InteriorPoint

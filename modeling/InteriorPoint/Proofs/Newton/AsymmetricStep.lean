import InteriorPoint.Proofs.Function.Composition
import InteriorPoint.Proofs.Newton.BarrierStep

/-!
# Newton steps of Hessians that are not quite symmetric

A quadratic function is accepted with a quadratic term that is symmetric within a tolerance, and
that term is its Hessian `H` as it is. The factorization of a step reads the lower triangle of `H`,
so it solves for the symmetric matrix `M` with that triangle, while refinement takes the residual of
`H` itself. What a solve leaves of a residual `r` is `E·r` with

  `E = (M − H)·M⁻¹`

so that `k` steps of refinement end with the residual `Eᵏ⁺¹·b` of `H·v = b`, exactly
(`Newton.residual_of_outcome_direction`). It is zero where `H` is symmetric, and refinement helps
where the asymmetry is small against `M`. The tolerance does not see to that: it is absolute for
entries below one, and for a Hessian of that size every step of refinement may make the residual
larger (`asymmetric_step_grows`).
-/

open Matrix

namespace InteriorPoint

open Exact

variable {n : ℕ}

/-! ## What a solve leaves of a residual -/

namespace Mat

/-- **What a solve leaves of a residual**: the asymmetry of the matrix times the inverse of the
symmetric one with its lower triangle. -/
noncomputable def leftover (H : Mat ℝ n n) : Matrix (Fin n) (Fin n) ℝ :=
  (H.mirrored - H.toMatrix) * H.mirrored⁻¹

/-- **The lower triangle outweighs the asymmetry** of a matrix. -/
def Outweighs (H : Mat ℝ n n) : Prop :=
  ∀ z, (H.mirrored - H.toMatrix) *ᵥ z ⬝ᵥ (H.mirrored - H.toMatrix) *ᵥ z
    ≤ H.mirrored *ᵥ z ⬝ᵥ H.mirrored *ᵥ z

variable {H : Mat ℝ n n}

theorem isUnit_det_mirrored (hM : H.mirrored.PosDef) : IsUnit H.mirrored.det :=
  (Matrix.isUnit_iff_isUnit_det _).mp hM.isUnit

/-- Of a symmetric matrix nothing is left over. -/
theorem leftover_of_isSymm (hH : H.toMatrix.IsSymm) : H.leftover = 0 := by
  rw [leftover, mirrored_of_isSymm hH, sub_self, zero_mul]

/-- **Where the lower triangle outweighs the asymmetry**, no residual grows. -/
theorem Outweighs.leftover_pow_mulVec_le (h : H.Outweighs) (hM : H.mirrored.PosDef) (k : ℕ)
    (r : Fin n → ℝ) : H.leftover ^ k *ᵥ r ⬝ᵥ H.leftover ^ k *ᵥ r ≤ r ⬝ᵥ r := by
  refine pow_mulVec_dotProduct_self_le_self (fun r => ?_) k r
  have hr := h (H.mirrored⁻¹ *ᵥ r)
  rwa [mulVec_mulVec, mulVec_mulVec, Matrix.mul_nonsing_inv _ (isUnit_det_mirrored hM),
    one_mulVec] at hr

/-! ## When nothing grows -/

/-- A matrix with small entries makes small vectors. -/
theorem mulVec_dotProduct_self_le {D : Matrix (Fin n) (Fin n) ℝ} {δ : ℝ}
    (hD : ∀ i j, |D i j| ≤ δ) (z : Fin n → ℝ) : D *ᵥ z ⬝ᵥ D *ᵥ z ≤ (n * δ) ^ 2 * (z ⬝ᵥ z) := by
  have hz : z ⬝ᵥ z = ∑ j, z j ^ 2 := Finset.sum_congr rfl fun j _ => (sq (z j)).symm
  have hrow : ∀ i, (D *ᵥ z) i * (D *ᵥ z) i ≤ n * δ ^ 2 * (z ⬝ᵥ z) := by
    intro i
    have hsquares : ∑ j, D i j ^ 2 ≤ n * δ ^ 2 := by
      refine (Finset.sum_le_card_nsmul Finset.univ _ (δ ^ 2) fun j _ => ?_).trans_eq ?_
      · exact sq_le_sq' (neg_le_of_abs_le (hD i j)) (le_of_abs_le (hD i j))
      · rw [Finset.card_univ, Fintype.card_fin, nsmul_eq_mul]
    calc (D *ᵥ z) i * (D *ᵥ z) i = (∑ j, D i j * z j) ^ 2 := (sq _).symm
      _ ≤ (∑ j, D i j ^ 2) * ∑ j, z j ^ 2 := Finset.sum_mul_sq_le_sq_mul_sq _ _ _
      _ ≤ n * δ ^ 2 * (z ⬝ᵥ z) := by
        rw [hz]
        exact mul_le_mul_of_nonneg_right hsquares (Finset.sum_nonneg fun j _ => sq_nonneg (z j))
  calc D *ᵥ z ⬝ᵥ D *ᵥ z ≤ ∑ _ : Fin n, n * δ ^ 2 * (z ⬝ᵥ z) :=
        Finset.sum_le_sum fun i _ => hrow i
    _ = (n * δ) ^ 2 * (z ⬝ᵥ z) := by
      rw [Finset.sum_const, Finset.card_univ, Fintype.card_fin, nsmul_eq_mul]
      ring

/-- **The lower triangle outweighs an asymmetry** that is small against its curvature. -/
theorem outweighs_of_curvature {δ : ℝ} (hδ : 0 ≤ δ)
    (hasymmetry : ∀ i j, |entry H i j - entry H j i| ≤ δ)
    (hcurvature : ∀ z, n * δ * (z ⬝ᵥ z) ≤ z ⬝ᵥ H.mirrored *ᵥ z) : H.Outweighs := by
  have hentries : ∀ i j, |(H.mirrored - H.toMatrix) i j| ≤ δ := by
    intro i j
    rw [Matrix.sub_apply, toMatrix_apply]
    by_cases h : j ≤ i
    · rwa [mirrored_of_le H h, sub_self, abs_zero]
    · rw [mirrored_comm, mirrored_of_le H (not_le.mp h).le]
      exact hasymmetry j i
  intro z
  exact (mulVec_dotProduct_self_le hentries z).trans
    (le_mulVec_dotProduct_self (by positivity) (hcurvature z))

end Mat

/-- **What the tolerance lets through is outweighed** by a curvature that exceeds it against the
largest entry. -/
theorem Quadratic.outweighs {q : Quadratic ℝ n} {B : ℝ} (hB : 1 ≤ B)
    (hq : ∀ i j, |Mat.entry q.a i j| ≤ B)
    (hcurvature : ∀ z, n * (B / 10 ^ 6) * (z ⬝ᵥ z) ≤ z ⬝ᵥ q.a.mirrored *ᵥ z) :
    q.a.Outweighs := by
  refine Mat.outweighs_of_curvature (by positivity) (fun i j => ?_) hcurvature
  have hscale := max_le (max_le (hq i j) (hq j i)) hB
  calc |Mat.entry q.a i j - Mat.entry q.a j i|
      ≤ 1 / 10 ^ 6 * max (max |Mat.entry q.a i j| |Mat.entry q.a j i|) 1 :=
        q.abs_sub_transposed_le i j
    _ ≤ B / 10 ^ 6 := by linarith

/-! ## The step -/

namespace Newton

/-- Without regularization the Hessian itself is factored. -/
theorem shiftDiagonal_zero (H : Mat ℝ n n) : Block.shiftDiagonal 0 H = H := by
  refine Mat.ext_entry fun i j => ?_
  rw [Block.shiftDiagonal, Mat.entry_of, add_zero, ite_self]

/-- **The residual of a step without regularization**, of any function and at any point. -/
theorem residual_of_outcome_direction {s : Solver ℝ} (hreg : s.settings.regularization = 0)
    {f : Smooth ℝ n} {x : Array ℝ} {g : Vec ℝ n} {step : Step ℝ n}
    (hstep : (direction s none f x).outcome = .ok (g, step)) :
    ∃ H, (f.hessian x).outcome = .ok H ∧ H.mirrored.PosDef ∧
      H.toMatrix *ᵥ step.v.get + g.get = H.leftover ^ (s.settings.refinements + 1) *ᵥ g.get := by
  obtain ⟨-, H, hH, hstep⟩ := outcome_direction_eq_ok.mp hstep
  obtain ⟨-, -, H', hH', hdense⟩ := Solver.outcome_solveReduced_eq_ok.mp hstep
  obtain rfl := Dense.ofMat_inj hH'
  have hresidual := Solver.residual_of_outcome_solveDense hdense
  rw [hreg, shiftDiagonal_zero] at hresidual
  exact ⟨H, hH, hresidual.1, hresidual.2⟩

/-- **There is a step** without regularization wherever the lower triangle of the Hessian is that
of a positive definite matrix. -/
theorem exists_outcome_direction {s : Solver ℝ} (hvalid : s.settings.validate = .ok ())
    (hreg : s.settings.regularization = 0) (hn : 0 < n) {f : Smooth ℝ n} {x : Array ℝ}
    {g : Vec ℝ n} {H : Mat ℝ n n} (hg : (f.gradient x).outcome = .ok g)
    (hH : (f.hessian x).outcome = .ok H) (hM : H.mirrored.PosDef) :
    ∃ step, (direction s none f x).outcome = .ok (g, step) := by
  have hcases := s.outcome_solveDense_cases H g
  rw [hreg, shiftDiagonal_zero] at hcases
  obtain ⟨-, F, -, hok⟩ | ⟨hindefinite, -⟩ := hcases
  · exact ⟨_, outcome_direction_eq_ok.mpr
      ⟨hg, H, hH, (Solver.outcome_solveReduced hvalid hn.ne' H g).trans hok⟩⟩
  · exact absurd hM hindefinite

/-- No step is worse than none where the lower triangle outweighs the asymmetry. -/
theorem residualNorm_le {H : Mat ℝ n n} {v g : Vec ℝ n} {k : ℕ} (hM : H.mirrored.PosDef)
    (hresidual : H.toMatrix *ᵥ v.get + g.get = H.leftover ^ k *ᵥ g.get) (h : H.Outweighs) :
    Mat.residualNorm H v (Vec.neg g) ≤ Vec.norm g := by
  rw [Mat.residualNorm_neg, hresidual, Vec.norm_eq]
  exact Real.sqrt_le_sqrt (h.leftover_pow_mulVec_le hM k g.get)

end Newton

/-- **The law of the step of a Hessian that may be asymmetric.** A step without regularization, of
any function and at any point, leaves the residual `Eᵏ⁺¹·g` after `k` steps of refinement. It is no
worse than no step if the lower triangle of the Hessian outweighs its asymmetry, and so for a
quadratic function whose curvature exceeds the tolerance against its largest entry. It is exact
for every function that is built from quadratic functions with symmetric terms. -/
theorem asymmetric_step_law (s : Solver ℝ) (hreg : s.settings.regularization = 0)
    (f : Smooth ℝ n) (x : Array ℝ) (g : Vec ℝ n) (step : Step ℝ n)
    (hstep : (Newton.direction s none f x).outcome = .ok (g, step)) :
    ∃ H, (f.hessian x).outcome = .ok H ∧ H.mirrored.PosDef ∧
      H.toMatrix *ᵥ step.v.get + g.get = H.leftover ^ (s.settings.refinements + 1) *ᵥ g.get ∧
      (H.Outweighs → Mat.residualNorm H step.v (Vec.neg g) ≤ Vec.norm g) ∧
      (∀ (q : Quadratic ℝ n) (B : ℝ), f = q.toSmooth → 1 ≤ B → (∀ i j, |Mat.entry q.a i j| ≤ B) →
        (∀ z, n * (B / 10 ^ 6) * (z ⬝ᵥ z) ≤ z ⬝ᵥ q.a.mirrored *ᵥ z) →
        Mat.residualNorm H step.v (Vec.neg g) ≤ Vec.norm g) ∧
      (Composed (fun c => ∃ q : Quadratic ℝ n, q.a.toMatrix.IsSymm ∧ c = q.toSmooth) f →
        H.toMatrix *ᵥ step.v.get = -g.get) := by
  obtain ⟨H, hH, hM, hresidual⟩ := Newton.residual_of_outcome_direction hreg hstep
  refine ⟨H, hH, hM, hresidual, Newton.residualNorm_le hM hresidual, ?_, fun hf => ?_⟩
  · rintro q B rfl hB hq hcurvature
    obtain ⟨_, -, hq'⟩ := Answer.outcome_bind_eq_ok.mp hH
    obtain rfl : q.a = H := Except.ok.inj hq'
    exact Newton.residualNorm_le hM hresidual (Quadratic.outweighs hB hq hcurvature)
  · have hleaf : ∀ c, (∃ q : Quadratic ℝ n, q.a.toMatrix.IsSymm ∧ c = q.toSmooth) →
        ∀ K, (c.hessian x).outcome = .ok K → K.toMatrix.IsSymm := by
      rintro _ ⟨q, hq, rfl⟩ K hK
      obtain ⟨_, -, hq'⟩ := Answer.outcome_bind_eq_ok.mp hK
      obtain rfl : q.a = K := Except.ok.inj hq'
      exact hq
    rw [Mat.leftover_of_isSymm (hf.isSymm_hessian mul_comm hleaf hH),
      zero_pow (Nat.succ_ne_zero _), zero_mulVec] at hresidual
    exact eq_neg_of_add_eq_zero_left hresidual

/-! ### Two asymmetric Hessians -/

namespace Mat

/-- What is left over, from a factor of the asymmetry. -/
theorem leftover_eq {H : Mat ℝ n n} (hM : H.mirrored.PosDef) {E : Matrix (Fin n) (Fin n) ℝ}
    (hE : E * H.mirrored = H.mirrored - H.toMatrix) : H.leftover = E := by
  rw [leftover, ← hE, Matrix.mul_nonsing_inv_cancel_right _ _ (isUnit_det_mirrored hM)]

end Mat

namespace Quadratic

/-- A quadratic function of two variables is symmetric within the tolerance if its two mixed terms
are. -/
theorem firstAsymmetry?_two {A : Mat ℝ 2 2}
    (hA : |Mat.entry A 0 1 - Mat.entry A 1 0|
      ≤ 1 / 10 ^ 6 * max (max |Mat.entry A 0 1| |Mat.entry A 1 0|) 1) :
    Dense.firstAsymmetry? A Dense.symmetryTolerance = none := by
  refine Dense.firstAsymmetry?_eq_none_iff.mpr fun i j hij => ?_
  obtain rfl : i = 0 := by omega
  obtain rfl : j = 1 := by omega
  rw [Dense.symmetryTolerance_eq_real]
  exact (Dense.apart_real (α := ℝ) _ _ _).trans (decide_eq_false (not_lt.mpr hA))

/-- A quadratic function whose one mixed term is as large as the tolerance lets it be. -/
noncomputable def skewed : Quadratic ℝ 2 where
  a := #v[#v[1, 1 / 10 ^ 6], #v[0, 1]]
  b := #v[1, 1]
  c := 0
  dim_pos := Nat.two_pos
  symmetric := firstAsymmetry?_two (by
    show |(1 / 10 ^ 6 : ℝ) - 0| ≤ 1 / 10 ^ 6 * max (max |1 / 10 ^ 6| |0|) 1
    norm_num)

/-- A quadratic function whose terms are all below the tolerance, and far from symmetric. -/
noncomputable def lopsided : Quadratic ℝ 2 where
  a := #v[#v[2 / 10 ^ 7, -8 / 10 ^ 7], #v[1 / 10 ^ 7, 2 / 10 ^ 7]]
  b := #v[1, 0]
  c := 0
  dim_pos := Nat.two_pos
  symmetric := firstAsymmetry?_two (by
    show |(-8 / 10 ^ 7 : ℝ) - 1 / 10 ^ 7| ≤ 1 / 10 ^ 6 * max (max |-8 / 10 ^ 7| |1 / 10 ^ 7|) 1
    norm_num)

theorem toMatrix_lopsided :
    lopsided.a.toMatrix = !![2 / 10 ^ 7, -8 / 10 ^ 7; 1 / 10 ^ 7, 2 / 10 ^ 7] := by
  ext i j
  fin_cases i <;> fin_cases j <;> rfl

theorem mirrored_lopsided :
    lopsided.a.mirrored = !![2 / 10 ^ 7, 1 / 10 ^ 7; 1 / 10 ^ 7, 2 / 10 ^ 7] := by
  ext i j
  fin_cases i <;> fin_cases j <;> rfl

theorem posDef_lopsided : lopsided.a.mirrored.PosDef := by
  have hsymm : lopsided.a.mirrored.IsSymm :=
    Matrix.IsSymm.ext fun i j => lopsided.a.mirrored_comm j i
  refine Matrix.PosDef.of_dotProduct_mulVec_pos
    (Matrix.isHermitian_iff_isSymm.mpr hsymm) fun {x} hx => ?_
  have hform : x ⬝ᵥ lopsided.a.mirrored *ᵥ x
      = 1 / 10 ^ 7 * (x 0 ^ 2 + x 1 ^ 2 + (x 0 + x 1) ^ 2) := by
    rw [mirrored_lopsided]
    simp [Matrix.mulVec, dotProduct, Fin.sum_univ_two]
    ring
  rw [star_trivial, hform]
  have hsquares : x 0 ^ 2 + x 1 ^ 2 ≠ 0 := by
    intro h
    have h0 : x 0 = 0 := by nlinarith [sq_nonneg (x 0), sq_nonneg (x 1)]
    have h1 : x 1 = 0 := by nlinarith [sq_nonneg (x 0), sq_nonneg (x 1)]
    exact hx (by ext i; fin_cases i <;> assumption)
  positivity

/-- Every solve triples what it reads of a residual in the first direction. -/
theorem leftover_lopsided : lopsided.a.leftover = !![-3, 6; 0, 0] := by
  refine Mat.leftover_eq posDef_lopsided ?_
  rw [mirrored_lopsided, toMatrix_lopsided, Matrix.mul_fin_two]
  ext i j
  fin_cases i <;> fin_cases j <;> norm_num [Matrix.sub_apply]

theorem toMatrix_skewed : skewed.a.toMatrix = !![1, 1 / 10 ^ 6; 0, 1] := by
  ext i j
  fin_cases i <;> fin_cases j <;> rfl

/-- The symmetric matrix with the lower triangle of the skewed one is the identity. -/
theorem mirrored_skewed : skewed.a.mirrored = 1 := by
  ext i j
  fin_cases i <;> fin_cases j <;> rfl

/-- What is left over of the skewed function, is left over once only. -/
theorem leftover_skewed_sq : skewed.a.leftover * skewed.a.leftover = 0 := by
  have hM : skewed.a.mirrored.PosDef := mirrored_skewed ▸ Matrix.PosDef.one
  have hleftover : skewed.a.leftover = !![0, -1 / 10 ^ 6; 0, 0] := by
    refine Mat.leftover_eq hM ?_
    rw [mirrored_skewed, mul_one, toMatrix_skewed, Matrix.one_fin_two]
    ext i j
    fin_cases i <;> fin_cases j <;> norm_num [Matrix.sub_apply]
  rw [hleftover, Matrix.mul_fin_two]
  ext i j
  fin_cases i <;> fin_cases j <;> norm_num

/-- The derivatives at the origin are the terms. -/
theorem derivatives_origin (q : Quadratic ℝ n) :
    (q.toSmooth.gradient (vec 0 : Vec ℝ n).toArray).outcome = .ok q.b ∧
      (q.toSmooth.hessian (vec 0 : Vec ℝ n).toArray).outcome = .ok q.a := by
  obtain ⟨-, hgradient, hhessian⟩ := formulas_toSmooth q 0
  rw [mulVec_zero, zero_add] at hgradient
  exact ⟨hgradient.trans (congrArg _ (vec_get_real _)),
    hhessian.trans (congrArg _ (mat_toMatrix_real _))⟩

end Quadratic

/-- The law for the skewed function: its step is no worse than none, and after the first step of
refinement it is exact. -/
theorem asymmetric_step_law_skewed :
    Solver.unchecked.settings.regularization = 0 ∧
    ∃ step, (Newton.direction Solver.unchecked none Quadratic.skewed.toSmooth
        (vec 0 : Vec ℝ 2).toArray).outcome = .ok (Quadratic.skewed.b, step) ∧
      Mat.residualNorm Quadratic.skewed.a step.v (Vec.neg Quadratic.skewed.b)
        ≤ Vec.norm Quadratic.skewed.b ∧
      Quadratic.skewed.a.toMatrix *ᵥ step.v.get + Quadratic.skewed.b.get = 0 := by
  have hvalid := Solver.validate_unchecked
  obtain ⟨hgradient, hhessian⟩ := Quadratic.derivatives_origin Quadratic.skewed
  obtain ⟨step, hstep⟩ := Newton.exists_outcome_direction hvalid rfl two_pos hgradient hhessian
    (Quadratic.mirrored_skewed ▸ Matrix.PosDef.one)
  obtain ⟨H, hH, -, hresidual, -, hbound, -⟩ :=
    asymmetric_step_law Solver.unchecked rfl _ _ _ _ hstep
  obtain rfl := Except.ok.inj (hhessian.symm.trans hH)
  refine ⟨rfl, step, hstep, hbound Quadratic.skewed 1 rfl le_rfl (fun i j => ?_) fun z => ?_, ?_⟩
  · rw [← Mat.toMatrix_apply, Quadratic.toMatrix_skewed]
    fin_cases i <;> fin_cases j <;> norm_num
  · have hsquare : 0 ≤ z ⬝ᵥ z := dotProduct_star_self_nonneg z
    rw [Quadratic.mirrored_skewed, one_mulVec, Nat.cast_ofNat]
    linarith
  · rw [hresidual]
    show (Quadratic.skewed.a.leftover ^ 3) *ᵥ _ = 0
    rw [pow_succ, sq, Quadratic.leftover_skewed_sq, zero_mul, zero_mulVec]

/-- **A step that is worse than none**: the lopsided function is accepted, and its step at the
origin leaves a residual of norm 27 of a gradient of norm one. -/
theorem asymmetric_step_grows :
    Quadratic.ofRows [#[2 / 10 ^ 7, -8 / 10 ^ 7], #[1 / 10 ^ 7, 2 / 10 ^ 7]] #[1, 0] 0
        = .ok Quadratic.lopsided ∧
    Solver.unchecked.settings.validate = .ok () ∧ Solver.unchecked.settings.regularization = 0 ∧
    (Quadratic.lopsided.toSmooth.hessian (vec 0 : Vec ℝ 2).toArray).outcome
      = .ok Quadratic.lopsided.a ∧
    Vec.norm Quadratic.lopsided.b = 1 ∧
    ∃ step, (Newton.direction Solver.unchecked none Quadratic.lopsided.toSmooth
        (vec 0 : Vec ℝ 2).toArray).outcome = .ok (Quadratic.lopsided.b, step) ∧
      Mat.residualNorm Quadratic.lopsided.a step.v (Vec.neg Quadratic.lopsided.b) = 27 := by
  have hvalid := Solver.validate_unchecked
  obtain ⟨hgradient, hhessian⟩ := Quadratic.derivatives_origin Quadratic.lopsided
  obtain ⟨step, hstep⟩ := Newton.exists_outcome_direction hvalid rfl two_pos hgradient hhessian
    Quadratic.posDef_lopsided
  obtain ⟨H, hH, -, hresidual⟩ := Newton.residual_of_outcome_direction rfl hstep
  obtain rfl := Except.ok.inj (hhessian.symm.trans hH)
  have hb : Quadratic.lopsided.b.get = ![1, 0] := by
    ext i
    fin_cases i <;> rfl
  have hcube : Quadratic.lopsided.a.leftover ^ (Solver.unchecked.settings.refinements + 1)
      = !![-27, 54; 0, 0] := by
    show Quadratic.lopsided.a.leftover ^ 3 = _
    rw [Quadratic.leftover_lopsided, pow_succ, sq, Matrix.mul_fin_two, Matrix.mul_fin_two]
    norm_num
  refine ⟨?_, hvalid, rfl, hhessian, ?_, step, hstep, ?_⟩
  · exact Quadratic.ofDense_ofMat (b := #[1, 0]) Quadratic.lopsided.a 0 two_pos
      Quadratic.lopsided.symmetric
  · rw [Vec.norm_eq, hb]
    simp
  · rw [Mat.residualNorm_neg, hresidual, hcube, hb]
    simp

end InteriorPoint

import InteriorPoint.Proofs.Function.DerivativeCheck
import InteriorPoint.Proofs.Function.QuadraticFormulas

/-!
# Quadratic functions have exact central differences

Along a coordinate a quadratic function is a parabola, and the slope of a parabola between two
points is its derivative half-way between them, however far they are apart. So over exact scalars
the central differences of a quadratic function are its derivatives, whatever the steps are, and a
test of derivatives compares the Hessian that is claimed with the true one. It finds every wrong
entry (`quadratic_test_law`).
-/

open scoped Matrix

namespace InteriorPoint

open Scalar Exact

variable {α : Type} [Scalar α] [Exact α] {n : ℕ}

namespace Derivative

/-! ## Errors of real numbers -/

/-- The error of a real number in relation to the exact one, or to one. -/
noncomputable def realError (exact approx : ℝ) : ℝ := |exact - approx| / max 1 |exact|

theorem realError_nonneg (exact approx : ℝ) : 0 ≤ realError exact approx := by
  unfold realError
  positivity

theorem realError_self (exact : ℝ) : realError exact exact = 0 := by
  rw [realError, sub_self, abs_zero, zero_div]

theorem relativeError_real (exact approx : ℝ) :
    relativeError (real exact : α) (real approx) = real (realError exact approx) := by
  have hscale : max |exact| 1 ≠ 0 := (zero_lt_one.trans_le (le_max_right _ _)).ne'
  unfold relativeError realError
  rw [sub_real, abs_real, abs_real, ← real_one, larger_real, div_real _ hscale, max_comm]
  exact if_neg (by simp)

theorem foldl_larger_real (a : ℝ) (l : List ℝ) :
    (l.map (real : ℝ → α)).foldl larger (real a) = real (l.foldl max a) := by
  rw [List.foldl_map]
  exact List.foldl_hom real fun v w => larger_real v w

/-- **The largest error over real pairs** is the largest of their errors. -/
theorem largestError_real {ι : Type} {l : List ι} (hl : l ≠ []) (u v : ι → ℝ) :
    ∃ e, IsGreatest ((fun p => realError (u p) (v p)) '' {p | p ∈ l}) e ∧
      largestError (l.map fun p => ((real (u p) : α), real (v p))) = real e := by
  have herrors : l.map (fun p => realError (u p) (v p)) ≠ [] := List.map_eq_nil_iff.not.mpr hl
  have hmem := List.mem_map.mp (List.max_mem herrors)
  have hnonneg : 0 ≤ (l.map fun p => realError (u p) (v p)).max herrors := by
    obtain ⟨p, -, hp⟩ := hmem
    rw [← hp]
    exact realError_nonneg _ _
  have hreal : (l.map fun p => ((real (u p) : α), real (v p))).map
      (fun p => relativeError p.1 p.2) = (l.map fun p => realError (u p) (v p)).map real := by
    rw [List.map_map, List.map_map]
    exact List.map_congr_left fun p _ => relativeError_real _ _
  refine ⟨_, ⟨hmem, ?_⟩, ?_⟩
  · rintro _ ⟨p, hp, rfl⟩
    exact List.le_max_of_mem (List.mem_map_of_mem (f := fun p => realError (u p) (v p)) hp)
  · show List.foldl larger 0 (List.map (fun p : α × α => relativeError p.1 p.2) _) = _
    rw [hreal, ← real_zero, foldl_larger_real, List.foldl_max_eq_max herrors,
      max_eq_right hnonneg]

/-! ## Parabolas -/

section Quadratic

open Quadratic

variable {A : Matrix (Fin n) (Fin n) ℝ} {b : Fin n → ℝ} {c : ℝ} {f : Smooth α n}

/-- **The slope of a parabola** between two points is the one half-way between them. -/
theorem realQuotient_valueOf (hA : A.IsSymm) (x : Fin n → ℝ) (j : Fin n) :
    realQuotient (valueOf A b c) x j = (A *ᵥ x + b) j := by
  have hstep : 2 * realStep (x j) ≠ 0 := mul_ne_zero two_ne_zero (realStep_pos _).ne'
  unfold realQuotient
  rw [valueOf_add_smul hA, valueOf_add_smul hA, dotProduct_single_one, div_eq_iff hstep]
  ring

/-- The slope of an affine field along a coordinate. -/
theorem realQuotient_gradientOf (x : Fin n → ℝ) (i j : Fin n) :
    realQuotient (fun y => (A *ᵥ y + b) i) x j = A i j := by
  have hstep : 2 * realStep (x j) ≠ 0 := mul_ne_zero two_ne_zero (realStep_pos _).ne'
  unfold realQuotient
  rw [div_eq_iff hstep]
  simp only [Matrix.mulVec_add, Matrix.mulVec_smul, Matrix.mulVec_single_one, Pi.add_apply,
    Pi.smul_apply, smul_eq_mul, Matrix.col_apply]
  ring

/-- **The gradient by differences** is exact for the values of a quadratic function. -/
theorem outcome_gradient_of_valueOf (hA : A.IsSymm) (hf : ∀ y, f.HasValue y (valueOf A b c y))
    (x : Fin n → ℝ) : (gradient f (vec x)).outcome = .ok (vec (A *ᵥ x + b)) := by
  rw [outcome_gradient_real hf, funext (realQuotient_valueOf hA x)]

/-- **The Hessian by differences** is exact for the gradients of a quadratic function. -/
theorem outcome_hessian_of_gradientOf (hA : A.IsSymm) (hf : ∀ y, f.HasGradient y (A *ᵥ y + b))
    (x : Fin n → ℝ) : (hessian f (vec x)).outcome = .ok (mat A) := by
  rw [outcome_hessian_real hf]
  refine congrArg (fun M => Except.ok (mat M)) (Matrix.ext fun i k => ?_)
  rw [Matrix.of_apply, realQuotient_gradientOf, realQuotient_gradientOf, hA.apply]
  ring

/-- **A test of a quadratic function** finds no error of the gradient, and the errors of the Hessian
that is claimed. -/
theorem outcome_check_of_quadratic (hn : 0 < n) (hA : A.IsSymm)
    (hvalue : ∀ y, f.HasValue y (valueOf A b c y)) (hgradient : ∀ y, f.HasGradient y (A *ᵥ y + b))
    {x : Fin n → ℝ} {B : Matrix (Fin n) (Fin n) ℝ} (hB : f.HasHessian x B) :
    ∃ e, IsGreatest (Set.range fun p : Fin n × Fin n => realError (B p.1 p.2) (A p.1 p.2)) e ∧
      (check f (vec x).toArray).outcome
        = .ok { gradientError := real 0, hessianError := real e } := by
  have hcoordinates : List.finRange n ≠ [] := List.ne_nil_of_mem (List.mem_finRange ⟨0, hn⟩)
  have hpositions : List.finRange n ×ˢ List.finRange n ≠ [] := List.ne_nil_of_mem
    (List.mem_product.mpr ⟨List.mem_finRange ⟨0, hn⟩, List.mem_finRange ⟨0, hn⟩⟩)
  obtain ⟨d, ⟨⟨i, -, hi⟩, -⟩, hd⟩ :=
    largestError_real (α := α) hcoordinates (A *ᵥ x + b) (A *ᵥ x + b)
  obtain ⟨e, ⟨⟨p, -, hp⟩, hle⟩, he⟩ :=
    largestError_real (α := α) hpositions (fun p => B p.2 p.1) (fun p => A p.2 p.1)
  obtain rfl : 0 = d := (realError_self _).symm.trans hi
  refine ⟨e, ⟨⟨p.swap, hp⟩, ?_⟩, outcome_check_eq_ok.mpr ⟨_, _, _, _, hgradient x,
    outcome_gradient_of_valueOf hA hvalue x, hB, outcome_hessian_of_gradientOf hA hgradient x, ?_⟩⟩
  · -- the positions are listed by columns
    rintro _ ⟨q, rfl⟩
    exact hle ⟨q.swap, List.mem_product.mpr ⟨List.mem_finRange _, List.mem_finRange _⟩, rfl⟩
  · rw [Vec.zip_toList, Mat.zip_byColumns]
    simp only [get_vec, entry_mat]
    rw [hd, he]

theorem passes_real (d e t : ℝ) :
    DerivativeCheck.passes ⟨(real d : α), real e⟩ (real t) = true ↔ d ≤ t ∧ e ≤ t := by
  simp [DerivativeCheck.passes]

end Quadratic

end Derivative

open InteriorPoint.Derivative Quadratic

/-- **The law of tests on quadratic functions**, over exact scalars.

Of a function with the value `½·xᵀAx + bᵀx + c` and the gradient `Ax + b`, whose term `A` is
symmetric, the central differences are `Ax + b` and `A`. The test of derivatives at `x` finds no
error in the gradient, and in the Hessian `B` that is claimed there the largest
`|Bᵢⱼ − Aᵢⱼ| / max(1, |Bᵢⱼ|)`; it is failed exactly if one of these is beyond the tolerance. A
quadratic function itself passes it under every tolerance. -/
theorem quadratic_test_law (hn : 0 < n) {A : Matrix (Fin n) (Fin n) ℝ} (hA : A.IsSymm)
    (b : Fin n → ℝ) (c : ℝ) (x : Fin n → ℝ) :
    (∀ (f : Smooth α n) (B : Matrix (Fin n) (Fin n) ℝ),
      (∀ y, f.HasValue y (1 / 2 * (y ⬝ᵥ A *ᵥ y) + b ⬝ᵥ y + c)) →
      (∀ y, f.HasGradient y (A *ᵥ y + b)) → f.HasHessian x B →
        (Derivative.gradient f (vec x)).outcome = .ok (vec (A *ᵥ x + b)) ∧
        (Derivative.hessian f (vec x)).outcome = .ok (mat A) ∧
        ∃ e, IsGreatest (Set.range fun p : Fin n × Fin n =>
            |B p.1 p.2 - A p.1 p.2| / max 1 |B p.1 p.2|) e ∧
          (Derivative.check f (vec x).toArray).outcome
            = .ok { gradientError := real 0, hessianError := real e } ∧
          ∀ t, 0 ≤ t → (DerivativeCheck.passes ⟨(real 0 : α), real e⟩ (real t) = false ↔
            ∃ i j, t < |B i j - A i j| / max 1 |B i j|)) ∧
    ∀ q : Quadratic α n, q.a = mat A → q.b = vec b → q.c = real c →
      ∃ r, (Derivative.check q.toSmooth (vec x).toArray).outcome = .ok r ∧
        ∀ t, 0 ≤ t → r.passes (real t) = true := by
  refine ⟨fun f B hvalue hgradient hB => ?_, fun q ha hb hc => ?_⟩
  · obtain ⟨e, he, hcheck⟩ := outcome_check_of_quadratic hn hA hvalue hgradient hB
    refine ⟨outcome_gradient_of_valueOf hA hvalue x, outcome_hessian_of_gradientOf hA hgradient x,
      e, he, hcheck, fun t ht => ?_⟩
    rw [← Bool.not_eq_true, passes_real, and_iff_right ht, not_le, lt_isLUB_iff he.isLUB]
    simp [realError]
  · obtain ⟨e, ⟨⟨p, hp⟩, -⟩, hcheck⟩ := outcome_check_of_quadratic hn hA
      (hasValue_toSmooth ha hb hc) (hasGradient_toSmooth ha hb) (hasHessian_toSmooth ha x)
    obtain rfl : 0 = e := (realError_self _).symm.trans hp
    exact ⟨_, hcheck, fun t ht => (passes_real 0 0 t).mpr ⟨ht, ht⟩⟩

/-- A quadratic function with another Hessian than its own. -/
def Quadratic.misstated (q : Quadratic α n) (B : Matrix (Fin n) (Fin n) ℝ) : Smooth α n :=
  .ofFormulas q.valueAt q.gradientAt fun _ => mat B

theorem Quadratic.hasHessian_misstated (q : Quadratic α n) (B : Matrix (Fin n) (Fin n) ℝ)
    (x : Fin n → ℝ) : (q.misstated B).HasHessian x B := by
  show (Smooth.point n (vec x).toArray >>= fun _ => pure (mat B) : Answer α (Mat α n n)).outcome = _
  rw [Smooth.point_toArray, pure_bind]
  rfl

/-- The identity as the Hessian of `½·(27·x₀² + 2·x₀·x₁)` does not get through under the tolerance
one, whereas the gradient has no error. -/
theorem quadratic_test_law_misstated :
    ∃ (hA : (!![27, 1; 1, 0] : Matrix (Fin 2) (Fin 2) ℝ).IsSymm) (e : ℝ),
      (Derivative.check ((ofTerms two_pos hA 0 0 : Quadratic ℝ 2).misstated 1)
        (vec ![3 / 2, -2] : Vec ℝ 2).toArray).outcome
          = .ok { gradientError := 0, hessianError := e } ∧
        DerivativeCheck.passes ⟨(0 : ℝ), e⟩ 1 = false := by
  have hA : (!![27, 1; 1, 0] : Matrix (Fin 2) (Fin 2) ℝ).IsSymm := by
    ext i j
    fin_cases i <;> fin_cases j <;> rfl
  let q : Quadratic ℝ 2 := ofTerms two_pos hA 0 0
  have hvalue := hasValue_toSmooth (f := q) (A := !![27, 1; 1, 0]) (b := 0) (c := 0) rfl rfl rfl
  have hgradient := hasGradient_toSmooth (f := q) (A := !![27, 1; 1, 0]) (b := 0) rfl rfl
  obtain ⟨-, -, e, -, hcheck, hpasses⟩ := (quadratic_test_law two_pos hA 0 0 ![3 / 2, -2]).1
    (q.misstated 1) 1 hvalue hgradient (q.hasHessian_misstated 1 _)
  refine ⟨hA, e, hcheck, (hpasses 1 zero_le_one).mpr ⟨0, 0, ?_⟩⟩
  norm_num

end InteriorPoint

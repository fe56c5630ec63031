import InteriorPoint.Proofs.Kkt.BlockSystem
import InteriorPoint.Proofs.Kkt.NewtonStep
import InteriorPoint.Proofs.Linear.Signature

/-!
# What the inertia check means

The quadratic form of the block matrix of a symmetric `H` under independent equations `A` has the
signature `(n, p)` exactly if `H` is positive definite on the null space of `A`
(`Block.definiteOnNullSpace_iff`). For the check this is exact but for its tolerance: where the
eigenvalues of the block matrix are known exactly and none is small against the largest one, it
passes exactly in this case, and where some are small it says that the system is singular
(`Solver.outcome_checkInertia_cases`).
-/

open Matrix QuadraticForm QuadraticMap

namespace InteriorPoint

variable {n p : ℕ}

namespace Block

/-! ## The form of a block matrix -/

/-- **Independent equations under which a quadratic form is positive definite.** -/
structure DefiniteOnNullSpace (H : Matrix (Fin n) (Fin n) ℝ) (A : Matrix (Fin p) (Fin n) ℝ) :
    Prop where
  /-- The equations are independent. -/
  rank_eq : A.rank = p
  /-- The form is positive wherever all equations have the value zero, but for the origin. -/
  pos : ∀ x, x ≠ 0 → A *ᵥ x = 0 → 0 < x ⬝ᵥ H *ᵥ x

/-- The matrix of optimality conditions, in blocks. -/
def saddle (H : Matrix (Fin n) (Fin n) ℝ) (A : Matrix (Fin p) (Fin n) ℝ) :
    Matrix (Fin n ⊕ Fin p) (Fin n ⊕ Fin p) ℝ :=
  fromBlocks H Aᵀ A 0

variable {H : Matrix (Fin n) (Fin n) ℝ} {A : Matrix (Fin p) (Fin n) ℝ}

theorem isSymm_saddle (hH : H.IsSymm) : (saddle H A).IsSymm := .fromBlocks hH rfl isSymm_zero

theorem quadraticForm_saddle (H : Matrix (Fin n) (Fin n) ℝ) (A : Matrix (Fin p) (Fin n) ℝ)
    (x : Fin n → ℝ) (w : Fin p → ℝ) :
    (saddle H A).toQuadraticForm' (Sum.elim x w) = x ⬝ᵥ H *ᵥ x + 2 * (w ⬝ᵥ A *ᵥ x) := by
  have hmixed : x ⬝ᵥ Aᵀ *ᵥ w = w ⬝ᵥ A *ᵥ x := by
    rw [dotProduct_mulVec, vecMul_transpose, dotProduct_comm]
  rw [quadraticForm_apply, saddle, fromBlocks_mulVec, Sum.elim_comp_inl, Sum.elim_comp_inr,
    sumElim_dotProduct_sumElim, dotProduct_add, hmixed, zero_mulVec, add_zero, add_assoc, two_mul]

theorem saddle_mulVec_eq_zero_iff {x : Fin n → ℝ} {w : Fin p → ℝ} :
    saddle H A *ᵥ Sum.elim x w = 0 ↔ H *ᵥ x + Aᵀ *ᵥ w = 0 ∧ A *ᵥ x = 0 := by
  rw [saddle, fromBlocks_mulVec, Sum.elim_comp_inl, Sum.elim_comp_inr, zero_mulVec, add_zero,
    ← Sum.elim_zero_zero, Sum.elim_eq_iff]

theorem finrank_pairs : Module.finrank ℝ (Fin n ⊕ Fin p → ℝ) = n + p := by
  rw [Module.finrank_pi, Fintype.card_sum, Fintype.card_fin, Fintype.card_fin]

/-- Equations are independent exactly if no combination of them vanishes. -/
theorem rank_eq_iff : A.rank = p ↔ ∀ w, Aᵀ *ᵥ w = 0 → w = 0 := by
  have hindependent : A.rank = p ↔ LinearIndependent ℝ A.row := by
    rw [linearIndependent_iff_card_eq_finrank_span, Fintype.card_fin,
      Matrix.rank_eq_finrank_span_row]
    exact eq_comm
  rw [hindependent, ← vecMul_injective_iff]
  simp only [mulVec_transpose]
  exact injective_iff_map_eq_zero A.vecMulLinear

/-- A definite block matrix has no null space. -/
theorem DefiniteOnNullSpace.eq_zero (h : DefiniteOnNullSpace H A) {x : Fin n → ℝ} {w : Fin p → ℝ}
    (hupper : H *ᵥ x + Aᵀ *ᵥ w = 0) (hlower : A *ᵥ x = 0) : x = 0 ∧ w = 0 := by
  have hx : x = 0 := by
    by_contra hne
    have hzero : x ⬝ᵥ H *ᵥ x = 0 := by
      rw [eq_neg_of_add_eq_zero_left hupper, dotProduct_neg, dotProduct_mulVec, vecMul_transpose,
        hlower, zero_dotProduct, neg_zero]
    exact (h.pos x hne hlower).ne' hzero
  rw [hx, mulVec_zero, zero_add] at hupper
  exact ⟨hx, rank_eq_iff.mp h.rank_eq w hupper⟩

/-! ## The signature -/

/-- The vectors whose first part lies in a subspace. -/
def cylinder (p : ℕ) (S : Submodule ℝ (Fin n → ℝ)) :
    (S × (Fin p → ℝ)) →ₗ[ℝ] (Fin n ⊕ Fin p → ℝ) where
  toFun z := Sum.elim z.1 z.2
  map_add' y z := by
    funext i
    cases i <;> rfl
  map_smul' c z := by
    funext i
    cases i <;> rfl

theorem finrank_range_cylinder (S : Submodule ℝ (Fin n → ℝ)) :
    Module.finrank ℝ (LinearMap.range (cylinder p S)) = Module.finrank ℝ S + p := by
  have hinjective : Function.Injective (cylinder p S) := by
    rintro ⟨x, v⟩ ⟨y, w⟩ h
    obtain ⟨hfirst, hsecond⟩ := Sum.elim_eq_iff.mp h
    exact Prod.ext (Subtype.ext hfirst) hsecond
  rw [LinearMap.finrank_range_of_inj hinjective, Module.finrank_prod, Module.finrank_fin_fun]

/-- **Directions without curvature** in the null space cost as many positive dimensions: over them
the form is nowhere positive, whatever the multipliers. -/
theorem sigPos_add_finrank_le {S : Submodule ℝ (Fin n → ℝ)} (hA : ∀ x ∈ S, A *ᵥ x = 0)
    (hH : ∀ x ∈ S, x ⬝ᵥ H *ᵥ x ≤ 0) :
    sigPos (saddle H A).toQuadraticForm' + Module.finrank ℝ S ≤ n := by
  have hrange : ∀ z ∈ LinearMap.range (cylinder p S), (saddle H A).toQuadraticForm' z ≤ 0 := by
    rintro _ ⟨⟨x, w⟩, rfl⟩
    show (saddle H A).toQuadraticForm' (Sum.elim x.1 w) ≤ 0
    rw [quadraticForm_saddle, hA x x.2, dotProduct_zero, mul_zero, add_zero]
    exact hH x x.2
  have h := sigPos_add_finrank_le_of_nonpos hrange
  rw [finrank_range_cylinder, finrank_pairs] at h
  omega

/-- **There are at most `p` negative dimensions** if the null space has no negative direction: on a
negative subspace the equations are a map without null space. -/
theorem sigNeg_le (hH : ∀ x, A *ᵥ x = 0 → 0 ≤ x ⬝ᵥ H *ᵥ x) :
    sigNeg (saddle H A).toQuadraticForm' ≤ p := by
  obtain ⟨V, hrank, hV⟩ := exists_finrank_eq_sigNeg_and_negDef (saddle H A).toQuadraticForm'
  have hinjective :
      Function.Injective ((A.mulVecLin ∘ₗ LinearMap.funLeft ℝ ℝ Sum.inl) ∘ₗ V.subtype) := by
    refine (injective_iff_map_eq_zero _).mpr fun z hz => ?_
    by_contra hne
    have hz : A *ᵥ (z.1 ∘ Sum.inl) = 0 := hz
    have hneg : 0 < -((saddle H A).toQuadraticForm' z.1) := hV z hne
    have hform := quadraticForm_saddle H A (z.1 ∘ Sum.inl) (z.1 ∘ Sum.inr)
    rw [Sum.elim_comp_inl_inr, hz, dotProduct_zero, mul_zero, add_zero] at hform
    linarith [hH _ hz]
  rw [← hrank]
  exact (LinearMap.finrank_le_finrank_of_injective hinjective).trans_eq (Module.finrank_fin_fun ℝ)

/-- **The signature of a block matrix** is `(n, p)` exactly if the equations are independent and
`H` is positive definite on their null space. -/
theorem definiteOnNullSpace_iff (hH : H.IsSymm) : DefiniteOnNullSpace H A ↔
    sigPos (saddle H A).toQuadraticForm' = n ∧ sigNeg (saddle H A).toQuadraticForm' = p := by
  set Q := (saddle H A).toQuadraticForm'
  have hmem : ∀ x w, Sum.elim x w ∈ Q.radical ↔ H *ᵥ x + Aᵀ *ᵥ w = 0 ∧ A *ᵥ x = 0 := fun x w =>
    (mem_radical_iff_mulVec_eq_zero (isSymm_saddle hH)).trans saddle_mulVec_eq_zero_iff
  have hsum : sigPos Q + sigNeg Q + Module.finrank ℝ Q.radical = n + p :=
    sigPos_add_sigNeg_add_radical.trans finrank_pairs
  constructor
  · intro h
    have hpos : sigPos Q + Module.finrank ℝ (⊥ : Submodule ℝ (Fin n → ℝ)) ≤ n := by
      refine sigPos_add_finrank_le (fun x hx => ?_) fun x hx => ?_
      · rw [(Submodule.mem_bot ℝ).mp hx, mulVec_zero]
      · rw [(Submodule.mem_bot ℝ).mp hx, zero_dotProduct]
    have hneg : sigNeg Q ≤ p := by
      refine sigNeg_le fun x hx => ?_
      by_cases h0 : x = 0
      · rw [h0, zero_dotProduct]
      · exact (h.pos x h0 hx).le
    have hradical : Q.radical = ⊥ := by
      refine (Submodule.eq_bot_iff _).mpr fun z hz => ?_
      rw [← Sum.elim_comp_inl_inr z] at hz ⊢
      obtain ⟨hupper, hlower⟩ := (hmem _ _).mp hz
      obtain ⟨hx, hw⟩ := h.eq_zero hupper hlower
      rw [hx, hw, Sum.elim_zero_zero]
    rw [hradical, finrank_bot] at hsum
    rw [finrank_bot] at hpos
    omega
  · rintro ⟨hpos, hneg⟩
    have hradical : Q.radical = ⊥ := Submodule.finrank_eq_zero.mp (by omega)
    refine ⟨rank_eq_iff.mpr fun w hw => ?_, fun x hx hAx => ?_⟩
    · have hz : Sum.elim (0 : Fin n → ℝ) w ∈ Q.radical :=
        (hmem 0 w).mpr ⟨by rw [mulVec_zero, zero_add, hw], mulVec_zero A⟩
      rw [hradical, Submodule.mem_bot, ← Sum.elim_zero_zero, Sum.elim_eq_iff] at hz
      exact hz.2
    · -- a direction without positive curvature would leave less than `n` positive dimensions
      by_contra hle
      have h : sigPos Q + Module.finrank ℝ (Submodule.span ℝ {x}) ≤ n := by
        refine sigPos_add_finrank_le (fun y hy => ?_) fun y hy => ?_
        · obtain ⟨c, rfl⟩ := Submodule.mem_span_singleton.mp hy
          rw [mulVec_smul, hAx, smul_zero]
        · obtain ⟨c, rfl⟩ := Submodule.mem_span_singleton.mp hy
          rw [mulVec_smul, smul_dotProduct, dotProduct_smul, smul_smul, smul_eq_mul]
          exact mul_nonpos_of_nonneg_of_nonpos (mul_self_nonneg c) (not_lt.mp hle)
      rw [finrank_span_singleton hx] at h
      omega

end Block

/-! ## The check -/

namespace Inertia

/-- **What the check comes to**: eigenvalues that count as zero are refused first, then signs that
are not those expected. -/
theorem outcome_check {α : Type} [Scalar α] (pivotTolerance : α) (n p : ℕ) (l : List α) :
    (check pivotTolerance n p l).outcome =
      if 0 < (ofList (pivotTolerance * Vec.largestAbs l) l).zero then
        .error (.error (.singularSystem (.eigenvalues
          (ofList (pivotTolerance * Vec.largestAbs l) l).zero (n + p)
          (pivotTolerance * Vec.largestAbs l))))
      else if (ofList (pivotTolerance * Vec.largestAbs l) l).positive ≠ n ∨
          (ofList (pivotTolerance * Vec.largestAbs l) l).negative ≠ p then
        .error (.error (.notPositiveDefinite (.inertia
          (ofList (pivotTolerance * Vec.largestAbs l) l).positive
          (ofList (pivotTolerance * Vec.largestAbs l) l).negative n p)))
      else .ok () := by
  unfold check
  dsimp only
  split_ifs
  · rfl
  · rfl
  · rfl

/-- **A check that passes** has found no eigenvalue that counts as zero, and the signs expected. -/
theorem outcome_check_eq_ok {α : Type} [Scalar α] {pivotTolerance : α} {n p : ℕ}
    {l : List α} :
    (check pivotTolerance n p l).outcome = .ok () ↔
      (ofList (pivotTolerance * Vec.largestAbs l) l).zero = 0 ∧
      (ofList (pivotTolerance * Vec.largestAbs l) l).positive = n ∧
      (ofList (pivotTolerance * Vec.largestAbs l) l).negative = p := by
  rw [outcome_check]
  split_ifs with hzero hsigns
  · exact iff_of_false (fun h => nomatch h) fun h => hzero.ne' h.1
  · exact iff_of_false (fun h => nomatch h) fun h => hsigns.elim (· h.2.1) (· h.2.2)
  · rw [not_or, not_not, not_not] at hsigns
    exact iff_of_true rfl ⟨Nat.eq_zero_of_not_pos hzero, hsigns⟩

/-- A real eigenvalue counts as zero if it lies within the tolerance. -/
theorem vanishes_iff {tolerance v : ℝ} : vanishes tolerance v ↔ |v| ≤ tolerance :=
  or_iff_right Bool.false_ne_true

/-- Some eigenvalues count as zero if one does. -/
theorem zero_ofList_pos_iff {tolerance : ℝ} {l : List ℝ} :
    0 < (ofList tolerance l).zero ↔ ∃ v ∈ l, |v| ≤ tolerance := by
  refine List.countP_pos_iff.trans (exists_congr fun v => and_congr_right fun _ => ?_)
  rw [decide_eq_true_iff, vanishes_iff]

/-- Where no eigenvalue counts as zero, the other counts are those of the signs. -/
theorem ofList_of_forall_lt {tolerance : ℝ} (htolerance : 0 ≤ tolerance) {l : List ℝ}
    (hl : ∀ v ∈ l, tolerance < |v|) :
    (ofList tolerance l).positive = l.countP (0 < ·) ∧
      (ofList tolerance l).negative = l.countP (· < 0) := by
  have hvanishes : ∀ v ∈ l, ¬ vanishes tolerance v := fun v hv =>
    vanishes_iff.not.mpr (not_le.mpr (hl v hv))
  refine ⟨List.countP_congr fun v hv => ?_, List.countP_congr fun v hv => ?_⟩
  · rw [decide_eq_true_iff, decide_eq_true_iff, and_iff_right (hvanishes v hv)]
  · have hne : v ≠ 0 := abs_pos.mp (htolerance.trans_lt (hl v hv))
    rw [decide_eq_true_iff, decide_eq_true_iff, and_iff_right (hvanishes v hv), not_lt]
    exact ⟨fun h => lt_of_le_of_ne h hne, le_of_lt⟩

end Inertia

namespace Solver

/-- **The solver finds the eigenvalues of a matrix**: those of the symmetric matrix with its lower
triangle, with multiplicity and in any order. -/
def FindsSpectrum (s : Solver ℝ) {m : ℕ} (K : Mat ℝ m m) : Prop :=
  ∃ d, s.spectrum? K = some d ∧ (d.toList : Multiset ℝ) = K.mirrored.charpoly.roots

/-- **The answer of a system that has small eigenvalues**: one of them, at least, lies within the
tolerance against the largest absolute value, and the refusal names the tolerance. -/
def SmallEigenvalue (s : Solver ℝ) (n p : ℕ) (K : Mat ℝ (n + p) (n + p)) : Prop :=
  ∃ (d : Vec ℝ (n + p)) (count : ℕ), s.spectrum? K = some d ∧
    (∃ v ∈ d.toList, |v| ≤ s.settings.pivotTolerance * Vec.largestAbs d.toList) ∧
    (s.checkInertia n p K).outcome = .error (.error (.singularSystem
      (.eigenvalues count (n + p) (s.settings.pivotTolerance * Vec.largestAbs d.toList))))

/-- The symmetric matrix whose eigenvalues are looked at is the stored one, in any numbering. -/
theorem charpoly_mirrored {ι : Type*} [Fintype ι] [DecidableEq ι] {m : ℕ} {K : Mat ℝ m m}
    {M : Matrix ι ι ℝ} (hM : M.IsSymm) {e : ι ≃ Fin m} (hK : K.toMatrix = Matrix.reindex e e M) :
    K.mirrored.charpoly = M.charpoly := by
  have hsymm : K.toMatrix.IsSymm := by
    rw [hK]
    exact hM.submatrix _
  rw [Mat.mirrored_of_isSymm hsymm, hK, Matrix.charpoly_reindex]

/-- **What the inertia check says** of a symmetric matrix whose eigenvalues are found: some of them
are small, or it decides whether the signature is the one expected. -/
theorem outcome_checkInertia_cases_of_reindex {s : Solver ℝ}
    (hvalid : s.settings.validate = .ok ()) (hcheck : s.settings.checkInertia = true)
    {K : Mat ℝ (n + p) (n + p)} {M : Matrix (Fin n ⊕ Fin p) (Fin n ⊕ Fin p) ℝ} (hM : M.IsSymm)
    (hK : K.toMatrix = Matrix.reindex finSumFinEquiv finSumFinEquiv M)
    (hspectrum : s.FindsSpectrum K) :
    s.SmallEigenvalue n p K ∨
    ((sigPos M.toQuadraticForm' = n ∧ sigNeg M.toQuadraticForm' = p) ∧
      (s.checkInertia n p K).outcome = .ok ()) ∨
    (¬ (sigPos M.toQuadraticForm' = n ∧ sigNeg M.toQuadraticForm' = p) ∧
      ∃ cause, (s.checkInertia n p K).outcome = .error (.error (.notPositiveDefinite cause))) := by
  obtain ⟨d, hd, hroots⟩ := hspectrum
  rw [charpoly_mirrored hM hK] at hroots
  have houtcome : (s.checkInertia n p K).outcome
      = (Inertia.check s.settings.pivotTolerance n p d.toList).outcome := by
    rw [checkInertia, if_pos hcheck, hd]
  have htolerance : 0 ≤ s.settings.pivotTolerance * Vec.largestAbs d.toList :=
    mul_nonneg ((Settings.validate_eq_ok_iff _).mp hvalid).2.le (Vec.largestAbs_nonneg _)
  rw [Inertia.outcome_check] at houtcome
  by_cases hsmall : ∃ v ∈ d.toList, |v| ≤ s.settings.pivotTolerance * Vec.largestAbs d.toList
  · rw [if_pos (Inertia.zero_ofList_pos_iff.mpr hsmall)] at houtcome
    exact Or.inl ⟨d, _, hd, hsmall, houtcome⟩
  · refine Or.inr ?_
    have hhermitian : M.IsHermitian := Matrix.isHermitian_iff_isSymm.mpr hM
    obtain ⟨hpositive, hnegative⟩ := Inertia.ofList_of_forall_lt htolerance fun v hv =>
      not_le.mp fun hle => hsmall ⟨v, hv, hle⟩
    rw [if_neg (Inertia.zero_ofList_pos_iff.not.mpr hsmall), hpositive, hnegative,
      countP_pos_eq_sigPos hhermitian hroots, countP_neg_eq_sigNeg hhermitian hroots] at houtcome
    rw [houtcome]
    by_cases hsignature : sigPos M.toQuadraticForm' = n ∧ sigNeg M.toQuadraticForm' = p
    · exact Or.inl ⟨hsignature, if_neg (not_or.mpr ⟨not_not.mpr hsignature.1,
        not_not.mpr hsignature.2⟩)⟩
    · exact Or.inr ⟨hsignature, _, if_pos (not_and_or.mp hsignature)⟩

/-- **Without regularization** the check decides whether the Hessian is definite on the null space
of independent equations. -/
theorem outcome_checkInertia_cases {s : Solver ℝ} (hvalid : s.settings.validate = .ok ())
    (hcheck : s.settings.checkInertia = true) {H : Mat ℝ n n} (hH : H.toMatrix.IsSymm)
    {A : Mat ℝ p n} (hspectrum : s.FindsSpectrum (Block.assemble H A (Mat.transpose A))) :
    s.SmallEigenvalue n p (Block.assemble H A (Mat.transpose A)) ∨
    (Block.DefiniteOnNullSpace H.toMatrix A.toMatrix ∧
      (s.checkInertia n p (Block.assemble H A (Mat.transpose A))).outcome = .ok ()) ∨
    (¬ Block.DefiniteOnNullSpace H.toMatrix A.toMatrix ∧
      ∃ cause, (s.checkInertia n p (Block.assemble H A (Mat.transpose A))).outcome
        = .error (.error (.notPositiveDefinite cause))) := by
  have hmatrix : (Block.assemble H A (Mat.transpose A)).toMatrix
      = Matrix.reindex finSumFinEquiv finSumFinEquiv (Block.saddle H.toMatrix A.toMatrix) := by
    rw [Block.toMatrix_assemble, Mat.toMatrix_transpose]
    rfl
  rw [Block.definiteOnNullSpace_iff hH]
  exact outcome_checkInertia_cases_of_reindex hvalid hcheck (Block.isSymm_saddle hH) hmatrix
    hspectrum

end Solver

/-- **The law of the inertia check.** For a symmetric Hessian without regularization, and where the
eigenvalues are found, a check that passes says that the equations are independent and the Hessian
is positive definite on their null space, and so does a step. Where this is the case, the check
passes or refuses the system as singular, because an eigenvalue lies within the tolerance. -/
theorem inertia_check_law (s : Solver ℝ) (hvalid : s.settings.validate = .ok ())
    (hreg : s.settings.regularization = 0) (hcheck : s.settings.checkInertia = true)
    (H : Mat ℝ n n) (hH : H.toMatrix.IsSymm) (A : Mat ℝ p n)
    (hspectrum : s.FindsSpectrum (s.blockMatrix H A (Mat.transpose A))) :
    ((s.checkInertia n p (s.blockMatrix H A (Mat.transpose A))).outcome = .ok () →
      Block.DefiniteOnNullSpace H.toMatrix A.toMatrix) ∧
    (∀ (g : Vec ℝ n) (r : Vec ℝ p) (step : Step ℝ n),
      (s.solve (.ofMat H) (.ofMat A) (.ofMat (Mat.transpose A)) g r).outcome = .ok step →
      Block.DefiniteOnNullSpace H.toMatrix A.toMatrix) ∧
    (Block.DefiniteOnNullSpace H.toMatrix A.toMatrix →
      (s.checkInertia n p (s.blockMatrix H A (Mat.transpose A))).outcome = .ok () ∨
      s.SmallEigenvalue n p (s.blockMatrix H A (Mat.transpose A))) := by
  rw [Solver.blockMatrix_of_regularization hreg] at hspectrum ⊢
  have hcases := Solver.outcome_checkInertia_cases hvalid hcheck hH hspectrum
  have hpass : (s.checkInertia n p (Block.assemble H A (Mat.transpose A))).outcome = .ok () →
      Block.DefiniteOnNullSpace H.toMatrix A.toMatrix := by
    intro hok
    obtain ⟨d, count, -, -, hrefuse⟩ | ⟨hdefinite, -⟩ | ⟨-, cause, hrefuse⟩ := hcases
    · exact nomatch hrefuse.symm.trans hok
    · exact hdefinite
    · exact nomatch hrefuse.symm.trans hok
  refine ⟨hpass, fun g r step hstep => ?_, fun hdefinite => ?_⟩
  · obtain ⟨-, hn, -, -, -, -, -, -, htranspose, -⟩ := Solver.outcome_solve_eq_ok.mp hstep
    rw [Solver.outcome_solve hvalid hn htranspose] at hstep
    have hok := (Solver.outcome_solveBlock_eq_ok.mp hstep).1
    rw [Solver.blockMatrix_of_regularization hreg] at hok
    exact hpass hok
  · obtain hsmall | ⟨-, hok⟩ | ⟨hindefinite, -⟩ := hcases
    · exact Or.inr hsmall
    · exact Or.inl hok
    · exact absurd hdefinite hindefinite

namespace Solver

theorem isHermitian_mirrored (M : Mat ℝ n n) : M.mirrored.IsHermitian :=
  Matrix.isHermitian_iff_isSymm.mpr (Matrix.IsSymm.ext fun i j => M.mirrored_comm j i)

/-- The default settings, with the eigenvalues of the spectral theorem. -/
noncomputable def spectral : Solver ℝ where
  settings := {}
  spectrum? M := some (Vector.ofFn (isHermitian_mirrored M).eigenvalues)

theorem findsSpectrum_spectral (K : Mat ℝ n n) : spectral.FindsSpectrum K := by
  refine ⟨_, rfl, ?_⟩
  rw [(isHermitian_mirrored K).roots_charpoly_eq_eigenvalues, Fin.univ_val_map]
  refine congrArg _ (Vector.toList_ofFn.trans ?_)
  rfl

/-- **The eigenvalues of a symmetric matrix** solve every quadratic equation that it solves. -/
theorem eigenvalues_quadratic {K : Matrix (Fin n) (Fin n) ℝ} (hK : K.IsHermitian) {b c : ℝ}
    (hequation : K * K + b • K = c • 1) (i : Fin n) :
    hK.eigenvalues i * hK.eigenvalues i + b * hK.eigenvalues i = c := by
  have hv : (hK.eigenvectorBasis i).ofLp ≠ 0 := fun h =>
    hK.eigenvectorBasis.orthonormal.ne_zero i (WithLp.ofLp_injective 2 h)
  have hvalue : (hK.eigenvalues i * hK.eigenvalues i + b * hK.eigenvalues i)
      • (hK.eigenvectorBasis i).ofLp = c • (hK.eigenvectorBasis i).ofLp := by
    rw [add_smul, mul_smul, mul_smul, ← hK.mulVec_eigenvectorBasis, ← mulVec_smul,
      ← hK.mulVec_eigenvectorBasis, mulVec_mulVec, ← smul_mulVec, ← add_mulVec, hequation,
      smul_mulVec, one_mulVec]
  exact smul_left_injective ℝ hv hvalue

/-- The eigenvalues of a symmetric matrix that is its own inverse are one or minus one. -/
theorem abs_eigenvalues_eq_one {K : Matrix (Fin n) (Fin n) ℝ} (hK : K.IsHermitian)
    (hinverse : K * K = 1) (i : Fin n) : |hK.eigenvalues i| = 1 := by
  have hequation : K * K + (0 : ℝ) • K = (1 : ℝ) • 1 := by
    rw [zero_smul, add_zero, one_smul, hinverse]
  have hsquare := eigenvalues_quadratic hK hequation i
  rw [zero_mul, add_zero] at hsquare
  exact (abs_eq zero_le_one).mpr (mul_self_eq_one_iff.mp hsquare)

/-- The eigenvalues of the spectral theorem are not small if their absolute values lie between two
bounds that are not too far apart. -/
theorem not_smallEigenvalue_of_abs_mem_Icc {s : Solver ℝ} {K : Mat ℝ (n + p) (n + p)}
    (hspectrum : s.spectrum? K = spectral.spectrum? K) {a b : ℝ} (hb : 0 ≤ b)
    (htolerance : 0 ≤ s.settings.pivotTolerance ∧ s.settings.pivotTolerance * b < a)
    (hK : ∀ i, |(isHermitian_mirrored K).eigenvalues i| ∈ Set.Icc a b) :
    ¬ s.SmallEigenvalue n p K := by
  rintro ⟨d, count, hd, ⟨v, hv, hsmall⟩, -⟩
  have hbounds : ∀ v ∈ d.toList, |v| ∈ Set.Icc a b := by
    intro v hv
    rw [← Option.some.inj (hspectrum.symm.trans hd)] at hv
    obtain ⟨i, rfl⟩ := List.mem_ofFn.mp (Vector.toList_ofFn ▸ hv)
    exact hK i
  have hlargest := Vec.largestAbs_le hb fun v hv => (hbounds v hv).2
  have hproduct := mul_le_mul_of_nonneg_left hlargest htolerance.1
  exact absurd ((hbounds v hv).1.trans (hsmall.trans hproduct)) (not_le.mpr htolerance.2)

/-- In particular if the matrix is its own inverse. -/
theorem not_smallEigenvalue_of_mul_self {s : Solver ℝ} {K : Mat ℝ (n + p) (n + p)}
    (hspectrum : s.spectrum? K = spectral.spectrum? K)
    (htolerance : 0 ≤ s.settings.pivotTolerance ∧ s.settings.pivotTolerance < 1)
    (hK : K.mirrored * K.mirrored = 1) : ¬ s.SmallEigenvalue n p K := by
  rw [← mul_one s.settings.pivotTolerance] at htolerance
  refine not_smallEigenvalue_of_abs_mem_Icc hspectrum zero_le_one ⟨?_, htolerance.2⟩ fun i => ?_
  · rw [← mul_one s.settings.pivotTolerance]
    exact htolerance.1
  · rw [abs_eigenvalues_eq_one _ hK i]
    exact ⟨le_rfl, le_rfl⟩

theorem pivotTolerance_spectral :
    0 ≤ spectral.settings.pivotTolerance ∧ spectral.settings.pivotTolerance < 1 := by
  show 0 ≤ ((1 : ℕ) : ℝ) / ((Nat.pow 10 13 : ℕ) : ℝ) ∧ ((1 : ℕ) : ℝ) / ((Nat.pow 10 13 : ℕ) : ℝ) < 1
  norm_num

/-- A Hessian of two variables without curvature in the second one. -/
def valley : Mat ℝ 2 2 := Mat.of ![![1, 0], ![0, 0]]

/-- The equation that the second variable does not move. -/
def acrossValley : Mat ℝ 1 2 := Mat.of ![![0, 1]]

theorem isSymm_valley : valley.toMatrix.IsSymm :=
  Matrix.IsSymm.ext fun i j => by fin_cases i <;> fin_cases j <;> rfl

theorem acrossValley_mulVec (x : Fin 2 → ℝ) (i : Fin 1) : (acrossValley.toMatrix *ᵥ x) i = x 1 := by
  rw [Subsingleton.elim i 0, Matrix.mulVec, dotProduct, Fin.sum_univ_two]
  show (0 : ℝ) * x 0 + 1 * x 1 = x 1
  ring

theorem definiteOnNullSpace_valley :
    Block.DefiniteOnNullSpace valley.toMatrix acrossValley.toMatrix := by
  refine ⟨Block.rank_eq_iff.mpr fun w hw => ?_, fun x hx hAx => ?_⟩
  · have h := congrFun hw 1
    rw [Matrix.mulVec, dotProduct, Fin.sum_univ_one] at h
    have h : (1 : ℝ) * w 0 = 0 := h
    funext i
    rw [Subsingleton.elim i 0, Pi.zero_apply]
    linarith
  · have h1 : x 1 = 0 := by rw [← acrossValley_mulVec x 0, hAx, Pi.zero_apply]
    have h0 : x 0 ≠ 0 := by
      intro h0
      refine hx (funext fun i => ?_)
      fin_cases i
      · exact h0
      · exact h1
    have hform : x ⬝ᵥ valley.toMatrix *ᵥ x = x 0 * x 0 := by
      rw [dotProduct, Fin.sum_univ_two, Matrix.mulVec, Matrix.mulVec, dotProduct, dotProduct,
        Fin.sum_univ_two, Fin.sum_univ_two]
      show x 0 * (1 * x 0 + 0 * x 1) + x 1 * (0 * x 0 + 0 * x 1) = _
      ring
    rw [hform]
    exact mul_self_pos.mpr h0

/-- The block matrix of the valley is its own inverse. -/
theorem mirrored_valley_mul_self :
    (Block.assemble valley acrossValley (Mat.transpose acrossValley)).mirrored *
      (Block.assemble valley acrossValley (Mat.transpose acrossValley)).mirrored = 1 := by
  have hmatrix : (Block.assemble valley acrossValley (Mat.transpose acrossValley)).mirrored
      = !![1, 0, 0; 0, 0, 1; 0, 1, 0] := by
    ext i j
    fin_cases i <;> fin_cases j <;> rfl
  rw [hmatrix, Matrix.one_fin_three, Matrix.mul_fin_three]
  norm_num

theorem not_smallEigenvalue_valley : ¬ spectral.SmallEigenvalue 2 1
    (Block.assemble valley acrossValley (Mat.transpose acrossValley)) :=
  not_smallEigenvalue_of_mul_self rfl pivotTolerance_spectral mirrored_valley_mul_self

end Solver

/-- The law for a Hessian that is singular, but definite on the null space of the equation. -/
theorem inertia_check_law_valley :
    Solver.spectral.settings.validate = .ok () ∧ Solver.spectral.settings.regularization = 0 ∧
    Solver.spectral.settings.checkInertia = true ∧ Solver.valley.toMatrix.IsSymm ∧
    Solver.spectral.FindsSpectrum (Solver.spectral.blockMatrix Solver.valley Solver.acrossValley
      (Mat.transpose Solver.acrossValley)) ∧
    (Solver.spectral.checkInertia 2 1 (Solver.spectral.blockMatrix Solver.valley
      Solver.acrossValley (Mat.transpose Solver.acrossValley))).outcome = .ok () ∧
    Block.DefiniteOnNullSpace Solver.valley.toMatrix Solver.acrossValley.toMatrix := by
  have hvalid : Solver.spectral.settings.validate = .ok () := Solver.validate_unchecked
  obtain ⟨hpass, -, hdefinite⟩ := inertia_check_law Solver.spectral hvalid rfl rfl Solver.valley
    Solver.isSymm_valley Solver.acrossValley (Solver.findsSpectrum_spectral _)
  have hmatrix : Solver.spectral.blockMatrix Solver.valley Solver.acrossValley
      (Mat.transpose Solver.acrossValley) = _ := Solver.blockMatrix_of_regularization rfl _ _ _
  have hok := (hdefinite Solver.definiteOnNullSpace_valley).resolve_right
    (hmatrix ▸ Solver.not_smallEigenvalue_valley)
  exact ⟨hvalid, rfl, rfl, Solver.isSymm_valley, Solver.findsSpectrum_spectral _, hok, hpass hok⟩

end InteriorPoint

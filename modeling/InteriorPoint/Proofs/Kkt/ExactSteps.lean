import InteriorPoint.Newton.Descent
import InteriorPoint.Proofs.Kkt.BlockSystem
import InteriorPoint.Proofs.Kkt.ReducedStep
import InteriorPoint.Proofs.Linear.ExactFactors

/-!
# Newton steps over exact scalars

On a real gradient, a real Hessian and real equations, a step over exact scalars is the one that the
same factors and the same refinement give over `ℝ` (`Solver.outcome_solveDense_lift_eq_ok`,
`Solver.exists_of_outcome_solveBlock_lift`). So the direction of a step is real
(`Newton.exists_liftVec_of_outcome_stepAt`): among real numbers with infinities and an undefined
value, a Newton iteration meets these only where it evaluates its function, not where it solves.
-/

namespace InteriorPoint

open Exact
open scoped Matrix

variable {α : Type} [Scalar α] [Exact α] {m n p : ℕ}

namespace Exact

/-! ## Operations -/

theorem neg_liftVec (x : Vec ℝ n) : Vec.neg (liftVec x : Vec α n) = liftVec (Vec.neg x) := by
  refine Vec.ext_get fun i => ?_
  rw [Vec.get_neg, get_liftVec, get_liftVec, Vec.get_neg, neg_real]

theorem add_liftVec (x y : Vec ℝ n) :
    Vec.add (liftVec x : Vec α n) (liftVec y) = liftVec (Vec.add x y) := by
  rw [liftVec, liftVec, add_vec, ← Vec.get_add_eq]
  rfl

theorem sub_liftVec (x y : Vec ℝ n) :
    Vec.sub (liftVec x : Vec α n) (liftVec y) = liftVec (Vec.sub x y) := by
  refine Vec.ext_get fun i => ?_
  rw [Vec.get_sub, get_liftVec, get_liftVec, get_liftVec, Vec.get_sub, sub_real]

theorem dot_liftVec (x y : Vec ℝ n) :
    Vec.dot (liftVec x : Vec α n) (liftVec y) = real (Vec.dot x y) := by
  rw [liftVec, liftVec, dot_vec, Vec.dot_eq]

theorem norm_liftVec (x : Vec ℝ n) : Vec.norm (liftVec x : Vec α n) = real (Vec.norm x) := by
  have hnonneg : 0 ≤ Vec.dot x x := by
    rw [Vec.dot_eq]
    exact dotProduct_star_self_nonneg x.get
  rw [Vec.norm, dot_liftVec, sqrt_real hnonneg]
  rfl

theorem mulVec_liftMat (M : Mat ℝ m n) (x : Vec ℝ n) :
    Mat.mulVec (liftMat M : Mat α m n) (liftVec x) = liftVec (Mat.mulVec M x) := by
  rw [liftMat, liftVec, mulVec_vec, ← Mat.get_mulVec_eq]
  rfl

theorem transpose_liftMat (M : Mat ℝ m n) :
    Mat.transpose (liftMat M : Mat α m n) = liftMat (Mat.transpose M) := by
  refine Mat.ext_entry fun i j => ?_
  rw [Mat.entry_transpose, entry_liftMat, entry_liftMat, Mat.entry_transpose]

/-- A vector with finite entries is a real one. -/
theorem exists_liftVec {x : Vec α n} (h : ∀ i, Scalar.isFinite (x.get i) = true) :
    ∃ y, x = liftVec y := by
  choose y hy using fun i => isFinite_iff.mp (h i)
  refine ⟨Vector.ofFn y, Vec.ext_get fun i => ?_⟩
  rw [hy, get_liftVec, Vec.get_ofFn]

/-- A matrix with finite entries is a real one. -/
theorem exists_liftMat {M : Mat α m n}
    (h : ∀ i j, Scalar.isFinite (Mat.entry M i j) = true) : ∃ N, M = liftMat N := by
  choose N hN using fun i j => isFinite_iff.mp (h i j)
  refine ⟨Mat.of N, Mat.ext_entry fun i j => ?_⟩
  rw [hN, entry_liftMat, Mat.entry_of]

end Exact

namespace Block

/-! ## Blocks -/

theorem assemble_liftMat (H : Mat ℝ n n) (A : Mat ℝ p n) (T : Mat ℝ n p) :
    assemble (liftMat H : Mat α n n) (liftMat A) (liftMat T) = liftMat (assemble H A T) := by
  refine Mat.ext_entry fun i j => ?_
  refine Fin.addCases (fun i => ?_) (fun i => ?_) i <;>
    refine Fin.addCases (fun j => ?_) (fun j => ?_) j <;> simp [real_zero]

theorem regularize_liftMat (ε : ℝ) (K : Mat ℝ (n + p) (n + p)) :
    regularize (real ε : α) (liftMat K) = liftMat (regularize ε K) := by
  have hpos : (0 : α) < real ε ↔ 0 < ε := by rw [← real_zero, real_lt_real]
  unfold regularize
  by_cases hε : 0 < ε
  · rw [if_pos hε, if_pos (hpos.mpr hε)]
    refine Mat.ext_entry fun i j => ?_
    simp only [Mat.entry_of, entry_liftMat, add_real, sub_real]
    split_ifs
    · rfl
    · rfl
    · rfl
  · rw [if_neg hε, if_neg (hpos.not.mpr hε)]

theorem shiftDiagonal_liftMat (ε : ℝ) (H : Mat ℝ n n) :
    shiftDiagonal (real ε : α) (liftMat H) = liftMat (shiftDiagonal ε H) := by
  refine Mat.ext_entry fun i j => ?_
  unfold shiftDiagonal
  simp only [Mat.entry_of, entry_liftMat, add_real]
  split_ifs
  · rfl
  · rfl

theorem rightSide_liftVec (g : Vec ℝ n) (r : Vec ℝ p) :
    rightSide (liftVec g : Vec α n) (liftVec r) = liftVec (rightSide g r) := by
  refine Vec.ext_get fun i => ?_
  refine Fin.addCases (fun i => ?_) (fun i => ?_) i
  · rw [rightSide_castAdd, get_liftVec, get_liftVec, rightSide_castAdd, neg_real]
  · rw [rightSide_natAdd, get_liftVec, get_liftVec, rightSide_natAdd, neg_real]

theorem head_liftVec (x : Vec ℝ (n + p)) :
    head (liftVec x : Vec α (n + p)) = liftVec (head x) := by
  refine Vec.ext_get fun i => ?_
  rw [get_head, get_liftVec, get_liftVec, get_head]

end Block

/-! ## Refinement -/

/-- **Refinement commutes with the embedding**, if the solver does. -/
theorem refine_lift {M : Mat ℝ n n} {b : Vec ℝ n} {solve : Vec ℝ n → Option (Vec ℝ n)}
    {solve' : Vec α n → Option (Vec α n)}
    (hsolve : ∀ r, solve' (liftVec r) = (solve r).map liftVec) (steps : ℕ) (x : Vec ℝ n) :
    refine (liftMat M : Mat α n n) (liftVec b) solve' steps (liftVec x)
      = liftVec (refine M b solve steps x) := by
  induction steps generalizing x with
  | zero => rfl
  | succ steps ih =>
    rw [refine, refine, mulVec_liftMat, sub_liftVec, norm_liftVec]
    by_cases hzero : (Vec.norm (Vec.sub b (Mat.mulVec M x)) == 0) = true
    · rw [if_pos hzero, if_pos (real_beq_zero.mpr hzero)]
    · rw [if_neg hzero, if_neg (real_beq_zero.not.mpr hzero), hsolve]
      cases solve (Vec.sub b (Mat.mulVec M x)) with
      | none => rfl
      | some d =>
        simp only [Option.map_some]
        rw [add_liftVec, ih]

/-! ## Steps -/

namespace Solver

/-- **A reduced step on real inputs** is the one of a solver over `ℝ` with the same regularization
and as many refinement steps. -/
theorem outcome_solveDense_lift_eq_ok {s : Solver α} {r : Solver ℝ}
    (hε : s.settings.regularization = real r.settings.regularization)
    (hrefinements : s.settings.refinements = r.settings.refinements) {H : Mat ℝ n n} {g : Vec ℝ n}
    {step : Step α n} :
    (s.solveDense (liftMat H) (liftVec g)).outcome = .ok step ↔
      ∃ v, (r.solveDense H g).outcome = .ok (reducedStep g v) ∧
        step = reducedStep (liftVec g) (liftVec v) := by
  rw [outcome_solveDense, outcome_solveDense, hε, hrefinements, Block.shiftDiagonal_liftMat,
    Cholesky.factor?_liftMat]
  cases hF : Cholesky.factor? (Block.shiftDiagonal r.settings.regularization H) with
  | none => exact iff_of_false (fun h => nomatch h) fun ⟨_, h, _⟩ => nomatch h
  | some F =>
    have hsolve : ∀ b : Vec ℝ n, some ((Cholesky.lift F : Cholesky α n).solve (liftVec b))
        = (some (F.solve b)).map liftVec := fun b => congrArg some (Cholesky.solve_lift hF b)
    show Except.ok (reducedStep (liftVec g) (refine (liftMat H) (Vec.neg (liftVec g))
      (fun b => some ((Cholesky.lift F).solve b)) _ _)) = .ok step ↔ _
    rw [neg_liftVec, Cholesky.solve_lift hF, refine_lift hsolve]
    constructor
    · intro h
      exact ⟨_, rfl, (Except.ok.inj h).symm⟩
    · rintro ⟨v, hv, rfl⟩
      have hv : refine H (Vec.neg g) (fun b => some (F.solve b)) r.settings.refinements
          (F.solve (Vec.neg g)) = v := congrArg Step.v (Except.ok.inj hv)
      rw [← hv]

/-- **A block step on real inputs** is the one that the real factors give. -/
theorem exists_of_outcome_solveBlock_lift {s : Solver α} {ε : ℝ}
    (hε : s.settings.regularization = real ε) {H : Mat ℝ n n} {A : Mat ℝ p n} {T : Mat ℝ n p}
    {g : Vec ℝ n} {r : Vec ℝ p} {step : Step α n}
    (hstep : (s.solveBlock (liftMat H) (liftMat A) (liftMat T) (liftVec g) (liftVec r)).outcome
      = .ok step) :
    ∃ x, (Lu.factor (Block.regularize ε (Block.assemble H A T))).solve? (Block.rightSide g r)
        = some x ∧
      step = blockStep (liftMat H) (liftVec (refine (Block.assemble H A T) (Block.rightSide g r)
        (Lu.factor (Block.regularize ε (Block.assemble H A T))).solve?
        s.settings.refinements x)) := by
  obtain ⟨-, -, y, hy, rfl⟩ := outcome_solveBlock_eq_ok.mp hstep
  have hmatrix : s.blockMatrix (liftMat H) (liftMat A) (liftMat T)
      = liftMat (Block.regularize ε (Block.assemble H A T)) := by
    rw [blockMatrix, hε, Block.assemble_liftMat, Block.regularize_liftMat]
  rw [hmatrix, Block.rightSide_liftVec, Lu.factor_liftMat, Lu.solve?_lift] at hy
  obtain ⟨x, hx, rfl⟩ := Option.map_eq_some_iff.mp hy
  refine ⟨x, hx, ?_⟩
  rw [hmatrix, Block.assemble_liftMat, Block.rightSide_liftVec, Lu.factor_liftMat,
    refine_lift fun r => Lu.solve?_lift _ r]

/-- The solver with the default settings. -/
def standard : Solver α where
  settings := {}

end Solver

/-! ## The direction of a step -/

/-- Equations with finite entries. -/
structure Equations.Finite (eq : Equations α) : Prop where
  /-- The matrix is finite. -/
  matrix : ∀ i j, Scalar.isFinite (Mat.entry eq.matrix.entries i j) = true
  /-- The residual is finite. -/
  residual : ∀ i, Scalar.isFinite ((⟨eq.residual, rfl⟩ : Vec α eq.residual.size).get i) = true

namespace Newton

/-- Under finite equations a step holds a real solution of the block system. -/
theorem exists_blockStep_of_outcome_stepAt {s : Solver α} {e : Equations α} (he : e.Finite)
    {g : Vec ℝ n} {H : Mat ℝ n n} {step : Step α n}
    (hstep : (stepAt s (some e) (liftVec g) (liftMat H)).outcome = .ok step) :
    ∃ x : Vec ℝ (n + e.residual.size), step = Solver.blockStep (liftMat H) (liftVec x) := by
  obtain ⟨hmatrix, hresidual⟩ := he
  obtain ⟨hvalid, -, H', A', T', hH', hA', hT', -, hblock⟩ := Solver.outcome_solve_eq_ok.mp hstep
  obtain rfl := Dense.ofMat_inj hH'
  obtain ⟨r, hr⟩ := exists_liftVec hresidual
  have hfinite : ∀ i j, Scalar.isFinite (Mat.entry A' i j) = true := by
    rw [hA'] at hmatrix
    exact hmatrix
  obtain ⟨A, rfl⟩ := exists_liftMat hfinite
  have htranspose : Dense.transpose e.matrix = Dense.ofMat (liftMat (Mat.transpose A)) := by
    rw [hA']
    exact congrArg Dense.ofMat (transpose_liftMat A)
  obtain rfl := Dense.ofMat_inj (htranspose.symm.trans hT')
  obtain ⟨ε, -, hε, -⟩ := Settings.validate_eq_ok_iff_exists.mp hvalid
  rw [hr] at hblock
  obtain ⟨x, -, rfl⟩ := Solver.exists_of_outcome_solveBlock_lift hε hblock
  exact ⟨_, rfl⟩

/-- **The direction of a step is real** at a real gradient and a real Hessian, without equations or
under finite ones. -/
theorem exists_liftVec_of_outcome_stepAt {s : Solver α} {eq : Option (Equations α)}
    (heq : ∀ e ∈ eq, e.Finite) {g : Vec ℝ n} {H : Mat ℝ n n} {step : Step α n}
    (hstep : (stepAt s eq (liftVec g) (liftMat H)).outcome = .ok step) :
    ∃ v, step.v = liftVec v := by
  cases eq with
  | none =>
    obtain ⟨hvalid, -, H', hH', hdense⟩ := Solver.outcome_solveReduced_eq_ok.mp hstep
    obtain rfl := Dense.ofMat_inj hH'
    obtain ⟨ε, -, hε, -⟩ := Settings.validate_eq_ok_iff_exists.mp hvalid
    obtain ⟨v, -, rfl⟩ := (Solver.outcome_solveDense_lift_eq_ok
      (r := { settings := { regularization := ε, refinements := s.settings.refinements } })
      hε rfl).mp hdense
    exact ⟨v, rfl⟩
  | some e =>
    obtain ⟨x, rfl⟩ := exists_blockStep_of_outcome_stepAt (heq e rfl) hstep
    exact ⟨_, Block.head_liftVec _⟩

/-- **Steps without equations and without regularization**: there is one exactly for a positive
definite Hessian, and it is the solution. -/
theorem outcome_stepAt_none_eq_ok {s : Solver α} (hvalid : s.settings.validate = .ok ())
    (hreg : s.settings.regularization = 0) (hn : n ≠ 0) {g : Fin n → ℝ}
    {H : Matrix (Fin n) (Fin n) ℝ} (hH : H.IsSymm) {step : Step α n} :
    (stepAt s none (vec g) (mat H)).outcome = .ok step ↔
      H.PosDef ∧ ∃ v, H *ᵥ v = -g ∧ step = Solver.reducedStep (vec g) (vec v) := by
  let s' : Solver ℝ := { settings := { refinements := s.settings.refinements } }
  have hvalid' : s'.settings.validate = .ok () := Solver.validate_unchecked
  have hlift : (stepAt s none (vec g) (mat H)).outcome = .ok step ↔
      ∃ v, (s'.solveDense (mat H) (vec g)).outcome = .ok (Solver.reducedStep (vec g) v) ∧
        step = Solver.reducedStep (vec g) (vec v.get) := by
    show (s.solveReduced (.ofMat (mat H)) (vec g)).outcome = .ok step ↔ _
    rw [Solver.outcome_solveReduced hvalid hn, ← liftMat_mat, ← liftVec_vec]
    exact Solver.outcome_solveDense_lift_eq_ok (hreg.trans real_zero.symm) rfl
  have hreal : ∀ v : Vec ℝ n, (s'.solveDense (mat H) (vec g)).outcome
      = .ok (Solver.reducedStep (vec g) v) ↔ H.PosDef ∧ H *ᵥ v.get = -g := by
    rw [← toMatrix_mat_real H] at hH
    intro v
    rw [Solver.outcome_solveDense_eq_ok_iff hvalid' rfl hH, toMatrix_mat_real, get_vec_real]
  rw [hlift]
  constructor
  · rintro ⟨v, hv, hstep⟩
    exact ⟨((hreal v).mp hv).1, v.get, ((hreal v).mp hv).2, hstep⟩
  · rintro ⟨hposDef, v, hv, hstep⟩
    refine ⟨vec v, (hreal _).mpr ⟨hposDef, ?_⟩, ?_⟩
    · rwa [get_vec_real]
    · rwa [get_vec_real]

/-- Whether there is one depends on the settings and the Hessian only. -/
theorem exists_outcome_stepAt_none_iff {s : Solver α} (hreg : s.settings.regularization = 0)
    (hn : n ≠ 0) {g : Fin n → ℝ} {H : Matrix (Fin n) (Fin n) ℝ} (hH : H.IsSymm) :
    (∃ step, (stepAt s none (vec g) (mat H)).outcome = .ok step) ↔
      s.settings.validate = .ok () ∧ H.PosDef := by
  constructor
  · rintro ⟨step, hstep⟩
    have hvalid := (Solver.outcome_solveReduced_eq_ok.mp hstep).1
    exact ⟨hvalid, ((outcome_stepAt_none_eq_ok hvalid hreg hn hH).mp hstep).1⟩
  · rintro ⟨hvalid, hposDef⟩
    have hsolution : H *ᵥ H⁻¹ *ᵥ (-g) = -g := by
      rw [Matrix.mulVec_mulVec,
        Matrix.mul_nonsing_inv _ ((Matrix.isUnit_iff_isUnit_det H).mp hposDef.isUnit),
        Matrix.one_mulVec]
    exact ⟨_, (outcome_stepAt_none_eq_ok hvalid hreg hn hH).mpr ⟨hposDef, _, hsolution, rfl⟩⟩

/-- **The squared decrement of a step without regularization** is the curvature along it, with
equations or without. -/
theorem exists_decrementSquared_of_outcome_stepAt {s : Solver α} {eq : Option (Equations α)}
    (heq : ∀ e ∈ eq, e.Finite) (hreg : s.settings.regularization = 0) {g : Fin n → ℝ}
    {H : Matrix (Fin n) (Fin n) ℝ} (hH : H.IsSymm) {step : Step α n}
    (hstep : (stepAt s eq (vec g) (mat H)).outcome = .ok step) :
    ∃ v, step.v = vec v ∧ step.decrementSquared = real (v ⬝ᵥ H *ᵥ v) := by
  cases eq with
  | none =>
    obtain ⟨hvalid, hn, -⟩ := Solver.outcome_solveReduced_eq_ok.mp hstep
    obtain ⟨-, v, hv, rfl⟩ := (outcome_stepAt_none_eq_ok hvalid hreg hn hH).mp hstep
    refine ⟨v, rfl, ?_⟩
    show -Vec.dot (vec g) (vec v) = _
    rw [dot_vec, neg_real, hv, dotProduct_neg, dotProduct_comm]
  | some e =>
    rw [← liftVec_vec, ← liftMat_mat] at hstep
    obtain ⟨x, rfl⟩ := exists_blockStep_of_outcome_stepAt (heq e rfl) hstep
    refine ⟨(Block.head x).get, Block.head_liftVec x, ?_⟩
    show Vec.dot (Block.head (liftVec x))
      (Mat.mulVec (liftMat (mat H)) (Block.head (liftVec x))) = _
    rw [Block.head_liftVec, mulVec_liftMat, dot_liftVec, Vec.dot_eq, Mat.get_mulVec_eq,
      toMatrix_mat_real]

end Newton

end InteriorPoint

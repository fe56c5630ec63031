import InteriorPoint.Proofs.Kkt.BlockDecrement
import InteriorPoint.Proofs.Kkt.ReducedStep
import InteriorPoint.Proofs.Kkt.Superposition
import Mathlib.Analysis.Matrix.PosDef

/-!
# No equations

A solve under equations may be handed an empty list of them. Its block matrix is then the Hessian,
and its regularization the one of the Hessian alone, so both solves work on the same system. But
they work in different ways: one eliminates with row exchanges after a check of the pivots, the
other takes square roots of the lower triangle, and asks for a positive definite matrix.

The two come to the same step, because what refinement makes of a right-hand side depends on the
matrices only (`Solver.blockResponse_noEquations`). And the check of the signs of the eigenvalues
that expects no negative one is the test for positive definiteness, whatever its tolerance
(`Solver.posDef_of_outcome_checkInertia`).
-/

open Matrix

namespace InteriorPoint

variable {n : ℕ}

namespace Block

/-! ## Blocks -/

/-- The block matrix is the Hessian. -/
theorem assemble_noEquations (H : Mat ℝ n n) (A : Mat ℝ 0 n) (T : Mat ℝ n 0) :
    assemble H A T = H :=
  Mat.ext_entry (assemble_castAdd_castAdd H A T)

/-- The regularization is the one of the Hessian. -/
theorem regularize_noEquations {ε : ℝ} (hε : 0 ≤ ε) (H : Mat ℝ n n) :
    regularize (p := 0) ε H = shiftDiagonal ε H := by
  unfold regularize shiftDiagonal
  split_ifs with hpos
  · refine Mat.ext_entry fun i j => ?_
    have hi : i.val < n := i.isLt
    rw [Mat.entry_of, Mat.entry_of, if_pos hi]
  · refine Mat.ext_entry fun i j => ?_
    rw [Mat.entry_of, le_antisymm (not_lt.mp hpos) hε, add_zero, ite_self]

/-- A pair with an empty second part is its first part. -/
theorem pairs_noEquations (z : (Fin n → ℝ) × (Fin 0 → ℝ)) : pairs n 0 z = z.1 :=
  funext (Fin.append_left z.1 z.2)

theorem pairs_symm_noEquations (y : Fin n → ℝ) : ((pairs n 0).symm y).1 = y := by
  rw [← pairs_noEquations, LinearEquiv.apply_symm_apply]

end Block

namespace Solver

/-! ## The same step -/

variable {s : Solver ℝ} {H : Mat ℝ n n} {A : Mat ℝ 0 n} {T : Mat ℝ n 0}

/-- The two solves factor the same matrix. -/
theorem blockMatrix_noEquations (hvalid : s.settings.validate = .ok ()) (H : Mat ℝ n n)
    (A : Mat ℝ 0 n) (T : Mat ℝ n 0) :
    s.blockMatrix H A T = Block.shiftDiagonal s.settings.regularization H := by
  unfold blockMatrix
  rw [Block.assemble_noEquations]
  exact Block.regularize_noEquations ((Settings.validate_eq_ok_iff _).mp hvalid).1 H

/-- **Both solves make the same direction of a gradient**, if the Hessian is symmetric. -/
theorem blockResponse_noEquations (hvalid : s.settings.validate = .ok ()) (hH : H.toMatrix.IsSymm)
    (A : Mat ℝ 0 n) (T : Mat ℝ n 0) (z : (Fin n → ℝ) × (Fin 0 → ℝ)) :
    (s.blockResponse H A T z).1 = s.reducedResponse H z.1 := by
  have hmatrix : (s.blockMatrix H A T).toMatrix
      = (Block.shiftDiagonal s.settings.regularization H).mirrored := by
    rw [blockMatrix_noEquations hvalid, mirrored_shiftDiagonal hH, Block.toMatrix_shiftDiagonal]
  have hassemble : (Block.assemble H A T).toMatrix = H.toMatrix := by
    rw [Block.assemble_noEquations]
  have hneg : Block.pairs n 0 (-z) = -z.1 := Block.pairs_noEquations (-z)
  rw [blockResponse_apply, hmatrix, hassemble, hneg, reducedResponse_apply]
  exact Block.pairs_symm_noEquations _

/-- **The directions of the two solves are the same**, whatever the regularization and the number
of refinement steps. -/
theorem get_v_eq_of_outcome_solve (hvalid : s.settings.validate = .ok ()) (hH : H.toMatrix.IsSymm)
    {g : Vec ℝ n} {r : Vec ℝ 0} {block reduced : Step ℝ n}
    (hblock : (s.solve (.ofMat H) (.ofMat A) (.ofMat T) g r).outcome = .ok block)
    (hreduced : (s.solveReduced (.ofMat H) g).outcome = .ok reduced) : block.v = reduced.v := by
  obtain ⟨x, hx, hlinear, -⟩ := (admitsBlock_of_outcome_solve hblock).exists_outcome_solve g r
  obtain ⟨v, hv, hreducedLinear, -⟩ :=
    (admitsReduced_of_outcome_solveReduced hreduced).exists_outcome_solveReduced g
  rw [← Except.ok.inj (hx.symm.trans hblock), ← Except.ok.inj (hv.symm.trans hreduced)]
  have hsame : (Block.head x).get = v.get := by
    rw [hreducedLinear, ← blockResponse_noEquations hvalid hH A T (g.get, r.get), ← hlinear]
  exact Vec.ext_get (congrFun hsame)

/-! ## The same verdict -/

/-- **A check of the signs that expects as many positive eigenvalues as there are**, passes only
for a positive definite matrix. -/
theorem posDef_of_outcome_checkInertia {s : Solver ℝ} (hcheck : s.settings.checkInertia = true)
    {K : Mat ℝ n n} (hspectrum : s.FindsSpectrum K)
    (hok : (s.checkInertia n 0 K).outcome = .ok ()) : K.mirrored.PosDef := by
  obtain ⟨d, hd, hroots⟩ := hspectrum
  rw [outcome_checkInertia (p := 0) hcheck hd, Inertia.outcome_check_eq_ok] at hok
  have hlength : d.toList.length = n := Vector.length_toList
  have hall := List.countP_eq_length.mp (hok.2.1.trans hlength.symm)
  refine (isHermitian_mirrored K).posDef_iff_eigenvalues_pos.mpr fun i => ?_
  have hmem : (isHermitian_mirrored K).eigenvalues i ∈ d.toList := by
    rw [← Multiset.mem_coe, hroots, (isHermitian_mirrored K).roots_charpoly_eq_eigenvalues]
    exact Multiset.mem_map_of_mem _ (Finset.mem_univ i)
  exact (of_decide_eq_true (hall _ hmem)).2

end Solver

/-- **The law of the empty equations.** For a symmetric Hessian under no equations, the two solves
have the same direction wherever both have a step, and without regularization the same squared
decrement. Where the eigenvalues are found and their signs checked, a step of the solve under
equations tells that there is one of the solve without. -/
theorem empty_equations_law (s : Solver ℝ) (H : Mat ℝ n n) (hH : H.toMatrix.IsSymm)
    (A : Mat ℝ 0 n) (g : Vec ℝ n) (r : Vec ℝ 0) :
    (∀ block reduced,
      (s.solve (.ofMat H) (.ofMat A) (.ofMat (Mat.transpose A)) g r).outcome = .ok block →
      (s.solveReduced (.ofMat H) g).outcome = .ok reduced →
      block.v = reduced.v ∧
        (s.settings.regularization = 0 → block.decrementSquared = reduced.decrementSquared)) ∧
    (s.settings.checkInertia = true → s.FindsSpectrum (s.blockMatrix H A (Mat.transpose A)) →
      ∀ block,
        (s.solve (.ofMat H) (.ofMat A) (.ofMat (Mat.transpose A)) g r).outcome = .ok block →
        ∃ reduced, (s.solveReduced (.ofMat H) g).outcome = .ok reduced) := by
  constructor
  · intro block reduced hblock hreduced
    obtain ⟨hvalid, hn, -⟩ := Solver.outcome_solve_eq_ok.mp hblock
    have hv := Solver.get_v_eq_of_outcome_solve hvalid hH hblock hreduced
    refine ⟨hv, fun hreg => ?_⟩
    rw [Solver.outcome_solveReduced hvalid hn] at hreduced
    rw [Solver.decrementSquared_of_outcome_solveDense hvalid hreg hH hreduced, ← hv]
    obtain ⟨-, -, w, -, -, -, hcurvature⟩ := Solver.exists_rows_of_outcome_solve hreg hblock
    exact hcurvature
  · intro hcheck hspectrum block hblock
    obtain ⟨hvalid, hn, -, -, -, -, -, -, htranspose, -⟩ := Solver.outcome_solve_eq_ok.mp hblock
    rw [Solver.outcome_solve hvalid hn htranspose] at hblock
    rw [Solver.outcome_solveReduced hvalid hn]
    have hposDef := Solver.posDef_of_outcome_checkInertia hcheck hspectrum
      (Solver.outcome_solveBlock_eq_ok.mp hblock).1
    rw [Solver.blockMatrix_noEquations hvalid] at hposDef
    obtain ⟨v, hv, -⟩ := Solver.exists_outcome_solveDense_throughout hposDef g
    exact ⟨_, hv⟩

namespace Solver

/-- Elimination leaves the identity as it is. -/
theorem packed_factor_identity : (Lu.factor (Mat.identity : Mat ℝ 2 2)).packed = Mat.identity := by
  have hpivot : ∀ k : Fin 2, Lu.pivotRow (Mat.identity : Mat ℝ 2 2) k = k := by
    intro k
    fin_cases k <;> simp [Lu.pivotRow, Fin.foldl_succ]
  have hclear : ∀ k : Fin 2, Lu.clearColumn (Mat.swapRows (Mat.identity : Mat ℝ 2 2) k k) k
      = Mat.identity := by
    intro k
    refine Mat.ext_entry fun i j => ?_
    rw [Mat.entry_identity, Lu.entry_clearColumn]
    fin_cases k <;> fin_cases i <;> fin_cases j <;> simp [Mat.entry_swapRows]
  show (Lu.eliminate (Lu.eliminate ⟨Mat.identity, []⟩ 0) 1).packed = Mat.identity
  rw [Lu.eliminate_of_pivot_ne_zero (F := ⟨Mat.identity, []⟩) (by simp [hpivot])]
  simp only [hpivot, hclear]
  rw [Lu.eliminate_of_pivot_ne_zero (by simp [hpivot])]
  simp only [hpivot, hclear]

theorem outcome_checkPivots_identity :
    (spectral.checkPivots (Lu.factor (Mat.identity : Mat ℝ 2 2))).outcome = .ok () := by
  have hpivots : (Lu.factor (Mat.identity : Mat ℝ 2 2)).pivots.toList = [1, 1] := by
    rw [Lu.pivots, packed_factor_identity]
    rfl
  rw [outcome_checkPivots, hpivots]
  refine if_neg ?_
  simp [Vec.smallestAbs, Vec.largestAbs, pivotTolerance_spectral.2]

theorem toMatrix_identity : (Mat.identity : Mat ℝ n n).toMatrix = 1 := by
  ext i j
  rw [Mat.toMatrix_apply, Mat.entry_identity, Matrix.one_apply]

theorem isSymm_identity : (Mat.identity : Mat ℝ n n).toMatrix.IsSymm := by
  rw [toMatrix_identity]
  exact isSymm_one

theorem outcome_checkInertia_identity (A : Mat ℝ 0 n) :
    (spectral.checkInertia n 0 (Block.assemble Mat.identity A (Mat.transpose A))).outcome
      = .ok () := by
  have hdefinite :
      Block.DefiniteOnNullSpace (Mat.identity : Mat ℝ n n).toMatrix A.toMatrix := by
    refine ⟨Block.rank_eq_iff.mpr fun w _ => Subsingleton.elim w 0, fun x hx _ => ?_⟩
    rw [toMatrix_identity, one_mulVec]
    exact dotProduct_star_self_pos_iff.mpr hx
  have hinverse : (Block.assemble Mat.identity A (Mat.transpose A)).mirrored *
      (Block.assemble Mat.identity A (Mat.transpose A)).mirrored = 1 := by
    have hmatrix : (Block.assemble Mat.identity A (Mat.transpose A)).mirrored = 1 := by
      rw [Block.assemble_noEquations]
      exact (Mat.mirrored_of_isSymm isSymm_identity).trans toMatrix_identity
    rw [hmatrix, one_mul]
  obtain hsmall | ⟨-, hok⟩ | ⟨hindefinite, -⟩ := outcome_checkInertia_cases
    Settings.validate_default rfl isSymm_identity (findsSpectrum_spectral _)
  · exact absurd hsmall (not_smallEigenvalue_of_mul_self rfl pivotTolerance_spectral hinverse)
  · exact hok
  · exact absurd hdefinite hindefinite

/-- The Hessian of half the squared distance in the plane. -/
noncomputable abbrev planar : Mat ℝ 2 2 := Mat.identity

/-- No equations for two variables. -/
abbrev noEquations : Mat ℝ 0 2 := #v[]

end Solver

/-- The law for the Hessian of half the squared distance. -/
theorem empty_equations_law_planar :
    Solver.planar.toMatrix.IsSymm ∧ ∃ block reduced : Step ℝ 2,
      (Solver.spectral.solve (.ofMat Solver.planar) (.ofMat Solver.noEquations)
        (.ofMat (Mat.transpose Solver.noEquations)) #v[3, 4] (#v[] : Vec ℝ 0)).outcome
          = .ok block ∧
      (Solver.spectral.solveReduced (.ofMat Solver.planar) #v[3, 4]).outcome = .ok reduced ∧
      block.v = reduced.v ∧ block.decrementSquared = reduced.decrementSquared := by
  have hvalid : Solver.spectral.settings.validate = .ok () := Settings.validate_default
  have hmatrix : Solver.spectral.blockMatrix Solver.planar Solver.noEquations
      (Mat.transpose Solver.noEquations) = _ := Solver.blockMatrix_of_regularization rfl _ _ _
  have hpivots : (Solver.spectral.checkPivots (Lu.factor (Solver.spectral.blockMatrix Solver.planar
      Solver.noEquations (Mat.transpose Solver.noEquations)))).outcome = .ok () := by
    rw [hmatrix, Block.assemble_noEquations]
    exact Solver.outcome_checkPivots_identity
  obtain ⟨block, hblock⟩ := (Solver.exists_outcome_solveBlock_iff hvalid Solver.planar
    Solver.noEquations (Mat.transpose Solver.noEquations) #v[3, 4] #v[]).mpr
    ⟨hmatrix ▸ Solver.outcome_checkInertia_identity _, hpivots⟩
  rw [← Solver.outcome_solve hvalid two_ne_zero (Dense.checkTranspose_symmetryTolerance _)]
    at hblock
  obtain ⟨hsame, hexists⟩ := empty_equations_law Solver.spectral Solver.planar
    Solver.isSymm_identity Solver.noEquations #v[3, 4] #v[]
  obtain ⟨reduced, hreduced⟩ := hexists rfl (Solver.findsSpectrum_spectral _) block hblock
  obtain ⟨hv, hdecrement⟩ := hsame block reduced hblock hreduced
  exact ⟨Solver.isSymm_identity, block, reduced, hblock, hreduced, hv, hdecrement rfl⟩

end InteriorPoint

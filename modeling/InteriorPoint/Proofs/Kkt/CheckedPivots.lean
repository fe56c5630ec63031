import InteriorPoint.Proofs.Kkt.Outcome
import InteriorPoint.Proofs.Linear.FinitePivots

/-!
# What the check of the pivots rules out

The check compares the smallest absolute value with a multiple of the largest. Whether a running
minimum comes out undefined depends on where the undefined value stands: it is lost as soon as
another one follows. But an undefined pivot is followed by undefined ones only, and an undefined
entry in the last place does make the minimum undefined. So all pivots of a factorization that
passes are defined (`Solver.isNaN_get_pivots`), whatever the tolerance.

Among defined pivots a zero is found: the smallest absolute value is then at most zero, and so at
most every positive multiple of the largest. So with valid settings no pivot of a factorization that
passes is zero, and its factors answer every right-hand side (`Solver.isSome_solve?`).
-/

namespace InteriorPoint

open Scalar

/-! ## The smallest and the largest absolute value -/

namespace Vec

section Order

variable {α : Type} [Scalar α] [OrderRules α] {l : List α}

/-- **A running choice** by a relation in which every two defined values are comparable ends at a
defined value that is related to all it has met. -/
theorem foldl_choice {r : α → α → Prop} [DecidableRel r] (hrefl : ∀ x, isNaN x = false → r x x)
    (htrans : ∀ x y z, r x y → r y z → r x z)
    (htotal : ∀ x y, isNaN x = false → isNaN y = false → ¬ r x y → r y x)
    (hl : ∀ e ∈ l, isNaN e = false) {m : α} (hm : isNaN m = false) :
    ∃ s, l.foldl (fun m e => if r m (Scalar.abs e) then m else Scalar.abs e) m = s ∧
      isNaN s = false ∧ r s m ∧ ∀ e ∈ l, r s (Scalar.abs e) := by
  induction l generalizing m with
  | nil => exact ⟨m, rfl, hm, hrefl m hm, fun e he => absurd he List.not_mem_nil⟩
  | cons e l ih =>
    obtain ⟨he, hl⟩ := List.forall_mem_cons.mp hl
    have he := OrderRules.isNaN_abs_of_defined he
    rw [List.foldl_cons]
    split_ifs with hle
    · obtain ⟨s, hs, hdefined, hsm, hmem⟩ := ih hl hm
      exact ⟨s, hs, hdefined, hsm, List.forall_mem_cons.mpr ⟨htrans _ _ _ hsm hle, hmem⟩⟩
    · obtain ⟨s, hs, hdefined, hse, hmem⟩ := ih hl he
      exact ⟨s, hs, hdefined, htrans _ _ _ hse (htotal _ _ hm he hle),
        List.forall_mem_cons.mpr ⟨hse, hmem⟩⟩

/-- The smallest absolute value of defined entries is at most each of them. -/
theorem smallestAbs_le_of_defined (hl : ∀ e ∈ l, isNaN e = false) {e : α} (he : e ∈ l) :
    smallestAbs l ≤ Scalar.abs e := by
  cases l with
  | nil => exact absurd he List.not_mem_nil
  | cons a l =>
    obtain ⟨ha, hl⟩ := List.forall_mem_cons.mp hl
    obtain ⟨s, hs, -, hsa, hmem⟩ := foldl_choice (r := fun x y => x ≤ y)
      (fun _ => OrderRules.le_refl) (fun _ _ _ => OrderRules.le_trans)
      (fun _ _ => OrderRules.le_of_not_le) hl (OrderRules.isNaN_abs_of_defined ha)
    have hsmallest : smallestAbs (a :: l) = s := hs
    have hall : ∀ e ∈ a :: l, s ≤ Scalar.abs e := List.forall_mem_cons.mpr ⟨hsa, hmem⟩
    rw [hsmallest]
    exact hall e he

/-- The largest absolute value of defined entries is at least each of them. -/
theorem le_largestAbs_of_defined (hl : ∀ e ∈ l, isNaN e = false) {e : α} (he : e ∈ l) :
    Scalar.abs e ≤ largestAbs l := by
  cases l with
  | nil => exact absurd he List.not_mem_nil
  | cons a l =>
    obtain ⟨ha, hl⟩ := List.forall_mem_cons.mp hl
    obtain ⟨s, hs, -, hsa, hmem⟩ := foldl_choice (r := fun x y => y ≤ x)
      (fun _ => OrderRules.le_refl) (fun _ _ _ hxy hyz => OrderRules.le_trans hyz hxy)
      (fun _ _ hx hy => OrderRules.le_of_not_le hy hx) hl (OrderRules.isNaN_abs_of_defined ha)
    have hlargest : largestAbs (a :: l) = s := hs
    have hall : ∀ e ∈ a :: l, Scalar.abs e ≤ s := List.forall_mem_cons.mpr ⟨hsa, hmem⟩
    rw [hlargest]
    exact hall e he

end Order

/-- **An undefined entry in the last place** makes the smallest absolute value undefined. -/
theorem smallestAbs_of_last {α : Type} [Scalar α] [UndefinedRules α] {n : ℕ} {v : Vec α n}
    {h : n - 1 < n} (hv : isNaN (v.get ⟨n - 1, h⟩) = true) :
    isNaN (smallestAbs v.toList) = true := by
  have hconcat : ∀ (l : List α) (e : α), isNaN e = true →
      isNaN (smallestAbs (l ++ [e])) = true := by
    intro l e he
    cases l with
    | nil => exact UndefinedRules.isNaN_abs he
    | cons a l =>
      show isNaN ((l ++ [e]).foldl _ _) = true
      rw [List.foldl_append, List.foldl_cons, List.foldl_nil,
        if_neg (UndefinedRules.not_le_of_isNaN _ (UndefinedRules.isNaN_abs he))]
      exact UndefinedRules.isNaN_abs he
  have hne : v.toList ≠ [] := by
    intro hnil
    have hlength := v.length_toList
    rw [hnil] at hlength
    exact absurd hlength (Nat.ne_of_lt (Nat.zero_lt_of_lt h))
  have hlast : isNaN (v.toList.getLast hne) = true := by
    rw [List.getLast_eq_getElem]
    simp only [Vector.length_toList, Vector.getElem_toList]
    exact hv
  rw [← List.dropLast_append_getLast hne]
  exact hconcat _ _ hlast

/-- What holds of all entries of a vector holds of the members of its list. -/
theorem forall_mem_toList {α : Type} {n : ℕ} {v : Vec α n} {P : α → Prop} (h : ∀ i, P (v.get i)) :
    ∀ e ∈ v.toList, P e := by
  intro e he
  obtain ⟨k, hk, rfl⟩ := Vector.mem_iff_getElem.mp (Vector.mem_toList_iff.mp he)
  exact h ⟨k, hk⟩

/-- An entry of a vector is a member of its list. -/
theorem get_mem_toList {α : Type} {n : ℕ} (v : Vec α n) (i : Fin n) : v.get i ∈ v.toList :=
  Vector.mem_toList_iff.mpr (Vector.getElem_mem i.isLt)

end Vec

/-- **A regularized block matrix has an inherited property** in all its entries only if the matrix
itself has it. -/
theorem Block.of_regularize {α : Type} [Scalar α] {P : α → Prop} (hP : Inherited P) {n p : ℕ}
    {ε : α} {K : Mat α (n + p) (n + p)} {i j : Fin (n + p)}
    (h : P (Mat.entry (Block.regularize ε K) i j)) : P (Mat.entry K i j) := by
  unfold Block.regularize at h
  split_ifs at h with hε
  · rw [Mat.entry_of] at h
    split_ifs at h
    · exact (hP.of_add h).1
    · exact (hP.of_sub h).1
    · exact h
  · exact h

/-! ## The check -/

namespace Solver

variable {α : Type} [Scalar α] {s : Solver α} {n : ℕ}

/-- **The pivots of a factorization that passes are defined.** -/
theorem isNaN_get_pivots [UndefinedRules α] {K : Mat α n n}
    (hK : (s.checkPivots (Lu.factor K)).outcome = .ok ()) (i : Fin n) :
    isNaN ((Lu.factor K).pivots.get i) = false := by
  refine Bool.eq_false_of_not_eq_true fun hi => ?_
  have hlast := Lu.get_pivots_of_undefined hi (Nat.le_sub_one_of_lt i.isLt)
    (Nat.sub_one_lt_of_lt i.isLt)
  rw [outcome_checkPivots, if_pos (Or.inl (Vec.smallestAbs_of_last hlast))] at hK
  exact nomatch hK

/-- **An inherited property of all pivots** of a block solve that has a step is one of all entries
of the block matrix, whatever the regularization. -/
theorem of_outcome_solveBlock [UndefinedRules α] {P : α → Prop} (hP : Inherited P) {p : ℕ}
    {H : Mat α n n} {A : Mat α p n} {T : Mat α n p} {g : Vec α n} {r : Vec α p} {step : Step α n}
    (hpivots : ∀ i, P ((Lu.factor (s.blockMatrix H A T)).pivots.get i))
    (hstep : (s.solveBlock H A T g r).outcome = .ok step) (i j : Fin (n + p)) :
    P (Mat.entry (Block.assemble H A T) i j) := by
  obtain ⟨-, -, x, hx, -⟩ := outcome_solveBlock_eq_ok.mp hstep
  have hzero := (Lu.isSome_solve?_iff _ _).mp (Option.isSome_of_eq_some hx)
  exact Block.of_regularize hP (Lu.of_pivots hP (fun i => ⟨hpivots i, hzero i⟩) i j)

variable [OrderRules α]

/-- **Among defined pivots, one that is zero is refused**, whatever the tolerance. -/
theorem outcome_checkPivots_of_beq_zero {F : Lu α n} (hvalid : s.settings.validate = .ok ())
    (hdefined : ∀ i, isNaN (F.pivots.get i) = false) {i : Fin n}
    (hi : (F.pivots.get i == 0) = true) :
    ∃ cause, (s.checkPivots F).outcome = .error (.error (.singularSystem cause)) := by
  obtain ⟨-, htolerance⟩ := Settings.validate_eq_ok_iff_checks.mp hvalid
  have hlist : ∀ e ∈ F.pivots.toList, isNaN e = false := Vec.forall_mem_toList hdefined
  have hmem := Vec.get_mem_toList F.pivots i
  have hsmallest : Vec.smallestAbs F.pivots.toList ≤ 0 :=
    OrderRules.le_trans (Vec.smallestAbs_le_of_defined hlist hmem) (OrderRules.abs_le_zero hi)
  have hlargest : 0 ≤ Vec.largestAbs F.pivots.toList :=
    OrderRules.le_trans (OrderRules.zero_le_abs (hdefined i))
      (Vec.le_largestAbs_of_defined hlist hmem)
  have hproduct := OrderRules.zero_le_mul htolerance.1 htolerance.2 hlargest
  exact ⟨_, (outcome_checkPivots s F).trans
    (if_pos (Or.inr (OrderRules.le_trans hsmallest hproduct)))⟩

/-- So after the check none of them is zero. -/
theorem get_pivots_beq_zero {F : Lu α n} (hvalid : s.settings.validate = .ok ())
    (hF : (s.checkPivots F).outcome = .ok ()) (hdefined : ∀ i, isNaN (F.pivots.get i) = false)
    (i : Fin n) : (F.pivots.get i == 0) = false := by
  refine Bool.eq_false_of_not_eq_true fun hi => ?_
  obtain ⟨cause, hrefuse⟩ := outcome_checkPivots_of_beq_zero hvalid hdefined hi
  exact nomatch hrefuse.symm.trans hF

/-- **The factors of a factorization that passes answer every right-hand side.** -/
theorem isSome_solve? {K : Mat α n n} (hvalid : s.settings.validate = .ok ())
    (hK : (s.checkPivots (Lu.factor K)).outcome = .ok ()) (b : Vec α n) :
    ((Lu.factor K).solve? b).isSome :=
  (Lu.isSome_solve?_iff _ _).mpr (get_pivots_beq_zero hvalid hK (isNaN_get_pivots hK))

end Solver

end InteriorPoint

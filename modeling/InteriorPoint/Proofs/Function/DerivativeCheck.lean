import InteriorPoint.Proofs.Function.CentralDifferences
import InteriorPoint.Proofs.Function.WellFormed
import Mathlib.Data.List.ProdSigma

/-!
# A passed test of derivatives is a certificate

A test of derivatives keeps the largest of all errors, and the larger of two scalars passes an
undefined one over. The errors are therefore made infinite where they are undefined, before the
largest is taken. What an error is divided by cannot hide anything either: it is at least one, and
where it is infinite the error is undefined. So under a finite tolerance a test is passed exactly if
each entry of both derivatives is close to its difference quotient (`Derivative.Within`), wherever
it stands, and an entry that is not finite is close to nothing.
-/

namespace InteriorPoint

open Scalar

variable {α : Type}

/-! ## Entries in lockstep -/

/-- Two vectors side by side are the pairs of their entries. -/
theorem Vec.zip_toList {n : ℕ} (g g' : Vec α n) :
    g.toList.zip g'.toList = (List.finRange n).map fun i => (g.get i, g'.get i) := by
  have htoList (v : Vec α n) : v.toList = (List.finRange n).map v.get := by
    refine List.ext_getElem (by simp) fun i h₁ h₂ => ?_
    simp [Vector.get]
  rw [htoList, htoList, List.zip_map']

/-- Two matrices side by side, column after column, are the pairs of their entries. -/
theorem Mat.zip_byColumns {m n : ℕ} (M M' : Mat α m n) :
    (byColumns M).zip (byColumns M') = (List.finRange n ×ˢ List.finRange m).map
      fun p => (entry M p.2 p.1, entry M' p.2 p.1) := by
  have hcolumns (M : Mat α m n) : byColumns M
      = (List.finRange n ×ˢ List.finRange m).map fun p => entry M p.2 p.1 := by
    show (List.finRange n).flatMap _ = ((List.finRange n).flatMap _).map _
    rw [List.map_flatMap]
    refine List.flatMap_congr fun j _ => ?_
    rw [List.map_map]
    rfl
  rw [hcolumns, hcolumns, List.zip_map']

namespace Derivative

variable [Scalar α] {n : ℕ}

/-- The error of an approximate value in relation to the exact one, or to one if that is smaller. -/
def mixedError (exact approx : α) : α := abs (exact - approx) / larger (abs exact) 1

/-- **Two values are close** if their error is defined and within the tolerance. -/
def Within (tolerance exact approx : α) : Prop :=
  isNaN (mixedError exact approx) = false ∧ mixedError exact approx ≤ tolerance

/-- **The test at a point** compares both derivatives there with their central differences. -/
theorem outcome_check_eq_ok {f : Smooth α n} {x : Vec α n} {c : DerivativeCheck α} :
    (check f x.toArray).outcome = .ok c ↔ ∃ g g' H H',
      (f.gradient x.toArray).outcome = .ok g ∧ (gradient f x).outcome = .ok g' ∧
      (f.hessian x.toArray).outcome = .ok H ∧ (hessian f x).outcome = .ok H' ∧
      c = ⟨largestError (g.toList.zip g'.toList),
        largestError ((Mat.byColumns H).zip (Mat.byColumns H'))⟩ := by
  have hcheck : check f x.toArray = do
      let g ← f.gradient x.toArray
      let g' ← gradient f x
      let H ← f.hessian x.toArray
      let H' ← hessian f x
      return { gradientError := largestError (g.toList.zip g'.toList)
               hessianError := largestError ((Mat.byColumns H).zip (Mat.byColumns H')) } := by
    obtain ⟨x, rfl⟩ := x
    rfl
  rw [hcheck]
  simp only [Answer.outcome_bind_eq_ok, exists_and_left]
  refine exists_congr fun g => and_congr_right fun _ => exists_congr fun g' =>
    and_congr_right fun _ => exists_congr fun H => and_congr_right fun _ => exists_congr fun H' =>
    and_congr_right fun _ => ?_
  exact ⟨fun h => (Except.ok.inj h).symm, fun h => congrArg Except.ok h.symm⟩

/-- Where a function evaluates everywhere, its derivatives can be tested. -/
theorem outcome_check_of_evaluatesAt {f : Smooth α n} (hf : ∀ y, f.EvaluatesAt y) (x : Vec α n) :
    ∃ c, (check f x.toArray).outcome = .ok c := by
  choose v hv using fun y => (hf y).value
  choose d hd using fun y => (hf y).gradient
  obtain ⟨K, hK⟩ := (hf x).hessian
  have hgradient : (gradient f x).outcome = .ok (Vector.ofFn fun j =>
      slope (v (upperSide x j)) (v (lowerSide x j)) (stepSize (x.get j))) := by
    rw [gradient_eq_freshSweep, outcome_freshSweep_eq_ok]
    exact fun j => ⟨_, _, hv _, hv _, Vec.get_ofFn _ j⟩
  have hhessian : ∃ H, (hessian f x).outcome = .ok H := by
    refine ⟨Mat.of fun i k => (_ + _) * half, outcome_hessian_eq_ok.mpr ⟨fun i j =>
      slope ((d (upperSide x j)).get i) ((d (lowerSide x j)).get i) (stepSize (x.get j)),
      fun j => ⟨_, _, hd _, hd _, fun i => rfl⟩, fun i k => Mat.entry_of _ i k⟩⟩
  obtain ⟨H, hH⟩ := hhessian
  exact ⟨_, outcome_check_eq_ok.mpr ⟨_, _, _, _, hd x, hgradient, hK, hH, rfl⟩⟩

variable [BoundRules α] {t exact approx : α}

/-- Only finite values are close to each other. -/
theorem Within.isFinite (ht : isFinite t = true) (h : Within t exact approx) :
    isFinite exact = true ∧ isFinite approx = true := by
  obtain ⟨hdefined, hle⟩ := h
  have hdividend : isNaN (abs (exact - approx)) = false :=
    UndefinedRules.inherited.of_div hdefined
  have hdifference : isNaN (exact - approx) = false :=
    Bool.eq_false_of_not_eq_true fun h =>
      Bool.false_ne_true (hdividend.symm.trans (UndefinedRules.isNaN_abs h))
  refine BoundRules.isFinite_of_sub (Bool.of_not_eq_false fun hinfinite => ?_)
  -- otherwise the error is an infinity over something that is at least one
  have habs := BoundRules.abs_eq_infinity hdifference hinfinite
  unfold mixedError at hdefined hle
  rw [habs] at hdefined hle
  rw [BoundRules.infinity_div (BoundRules.one_le_larger_one _) hdefined] at hle
  exact BoundRules.not_infinity_le ht hle

/-- An error is always defined, being infinite otherwise. -/
theorem isNaN_relativeError (exact approx : α) : isNaN (relativeError exact approx) = false := by
  unfold relativeError
  dsimp only
  split_ifs with h
  · exact BoundRules.isNaN_infinity
  · exact Bool.eq_false_of_not_eq_true h

/-- **An error is within a finite tolerance** exactly if the values are close. -/
theorem relativeError_le_iff (ht : isFinite t = true) :
    relativeError exact approx ≤ t ↔ Within t exact approx := by
  show (if isNaN (mixedError exact approx) then infinity else mixedError exact approx) ≤ t ↔ _
  unfold Within
  by_cases h : isNaN (mixedError exact approx) = true
  · rw [if_pos h, h]
    exact iff_of_false (BoundRules.not_infinity_le ht) fun hw => Bool.false_ne_true hw.1.symm
  · rw [if_neg h, and_iff_right (Bool.eq_false_of_not_eq_true h)]

/-- **The largest error is within a finite tolerance** exactly if the values of every pair are
close. -/
theorem largestError_le_iff (ht : isFinite t = true) (hzero : 0 ≤ t) {pairs : List (α × α)} :
    largestError pairs ≤ t ↔ ∀ p ∈ pairs, Within t p.1 p.2 := by
  have hdefined : ∀ e ∈ pairs.map fun p => relativeError p.1 p.2, isNaN e = false :=
    List.forall_mem_map.mpr fun p _ => isNaN_relativeError p.1 p.2
  show (pairs.map fun p => relativeError p.1 p.2).foldl larger 0 ≤ t ↔ _
  rw [BoundRules.foldl_larger_le_iff BoundRules.isNaN_zero hdefined, and_iff_right hzero,
    List.forall_mem_map]
  exact forall₂_congr fun p _ => relativeError_le_iff ht

/-- **A test is passed** under a finite tolerance exactly if all entries are close. -/
theorem passes_iff (ht : isFinite t = true) (hzero : 0 ≤ t) {g g' : Vec α n} {H H' : Mat α n n} :
    DerivativeCheck.passes ⟨largestError (g.toList.zip g'.toList),
        largestError ((Mat.byColumns H).zip (Mat.byColumns H'))⟩ t = true ↔
      (∀ i, Within t (g.get i) (g'.get i)) ∧
        ∀ i j, Within t (Mat.entry H i j) (Mat.entry H' i j) := by
  unfold DerivativeCheck.passes
  rw [Bool.and_eq_true, decide_eq_true_iff, decide_eq_true_iff, largestError_le_iff ht hzero,
    largestError_le_iff ht hzero, Vec.zip_toList, Mat.zip_byColumns, List.forall_mem_map,
    List.forall_mem_map]
  simp only [Prod.forall, List.mem_product, List.mem_finRange, and_self, forall_const]
  exact and_congr_right fun _ => forall_comm

end Derivative

open InteriorPoint.Derivative

/-- **The law of passed tests**, over scalars in which an infinity exceeds every finite tolerance,
double-precision numbers among them.

A function that evaluates everywhere can be tested at every point. Under a finite tolerance that is
not negative a test is passed exactly if the ratio `|exact − approx| / max(|exact|, 1)` is defined
and within the tolerance, for every component of the gradient and every entry of the Hessian with
its central difference. If only one of the numbers compared is not finite, in whichever place, the
test is not passed. -/
theorem derivative_certificate_law [Scalar α] [BoundRules α] {n : ℕ} (f : Smooth α n)
    (x : Vec α n) :
    ((∀ y, f.EvaluatesAt y) → ∃ c, (Derivative.check f x.toArray).outcome = .ok c) ∧
    ∀ c, (Derivative.check f x.toArray).outcome = .ok c → ∃ g g' H H',
      (f.gradient x.toArray).outcome = .ok g ∧ (Derivative.gradient f x).outcome = .ok g' ∧
      (f.hessian x.toArray).outcome = .ok H ∧ (Derivative.hessian f x).outcome = .ok H' ∧
      ∀ t : α, isFinite t = true → 0 ≤ t →
        (c.passes t = true ↔ (∀ i, Within t (g.get i) (g'.get i)) ∧
          ∀ i j, Within t (Mat.entry H i j) (Mat.entry H' i j)) ∧
        ((∃ i, isFinite (g.get i) = false ∨ isFinite (g'.get i) = false) ∨
          (∃ i j, isFinite (Mat.entry H i j) = false ∨ isFinite (Mat.entry H' i j) = false) →
            c.passes t = false) := by
  refine ⟨fun hf => outcome_check_of_evaluatesAt hf x, fun c hc => ?_⟩
  obtain ⟨g, g', H, H', hg, hg', hH, hH', rfl⟩ := outcome_check_eq_ok.mp hc
  refine ⟨g, g', H, H', hg, hg', hH, hH', fun t ht hzero => ?_⟩
  refine ⟨passes_iff ht hzero, fun hbad => Bool.eq_false_of_not_eq_true fun hpass => ?_⟩
  obtain ⟨hgradient, hhessian⟩ := (passes_iff ht hzero).mp hpass
  rcases hbad with ⟨i, hi⟩ | ⟨i, j, hij⟩
  · obtain ⟨hexact, happrox⟩ := (hgradient i).isFinite ht
    simp [hexact, happrox] at hi
  · obtain ⟨hexact, happrox⟩ := (hhessian i j).isFinite ht
    simp [hexact, happrox] at hij

/-- A constant function of double-precision numbers with an infinite entry in its Hessian. -/
def Derivative.infiniteEntry : Smooth Float 2 :=
  .ofFormulas (fun _ => 0) (fun _ => Vec.zero)
    fun _ => Mat.of fun i j => if i.val = 1 ∧ j.val = 0 then infinity else 0

/-- An infinite entry of a Hessian divided by itself is undefined. The test takes notice of it under
the tolerance one. -/
theorem derivative_certificate_law_infiniteEntry :
    ∃ c, (Derivative.check infiniteEntry (Vec.zero : Vec Float 2).toArray).outcome = .ok c ∧
      isFinite (1 : Float) = true ∧ (0 : Float) ≤ 1 ∧ c.passes 1 = false := by
  have heval (y : Vec Float 2) : infiniteEntry.EvaluatesAt y :=
    (Smooth.wellFormed_ofFormulas _ _ _).evaluatesAt y
  have hone : (0 : Float) ≤ 1 := by decide +kernel
  obtain ⟨c, hc⟩ := (derivative_certificate_law infiniteEntry Vec.zero).1 heval
  obtain ⟨g, g', H, H', -, -, hH, -, h⟩ :=
    (derivative_certificate_law infiniteEntry Vec.zero).2 c hc
  have hentry : Mat.entry H 1 0 = infinity := by
    have hpoint : (infiniteEntry.hessian (Vec.zero : Vec Float 2).toArray).outcome
        = .ok (Mat.of fun i j => if i.val = 1 ∧ j.val = 0 then infinity else 0) := rfl
    rw [← Except.ok.inj (hpoint.symm.trans hH), Mat.entry_of, if_pos ⟨rfl, rfl⟩]
  refine ⟨c, hc, rfl, hone, (h 1 rfl hone).2 (Or.inr ⟨1, 0, Or.inl ?_⟩)⟩
  rw [hentry]
  rfl

end InteriorPoint

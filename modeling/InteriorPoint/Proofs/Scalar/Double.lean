import InteriorPoint.Proofs.Scalar.Bound
import Mathlib.Data.Prod.Lex

/-!
# Double-precision numbers go by the rules

The scalars that run are double-precision numbers. What is asked of undefined values, of the order,
of signs and of bounds is true of them. Each operation reads its operands as a sign, a mantissa and
an exponent, or as one of the special values, and stores what it computes (`Double.reading`,
`Double.stored`). Rounding is part of the computation, and storing turns what is too large into an
infinity; neither of them changes the sign of a result or makes it undefined
(`Double.signOf_stored`). The order is the one of a place on a line (`Double.place`), on which
undefined values have none. So every rule is a question about a few cases, in none of which the
mantissa of a result matters.

Sums commute, for the mantissas are added as whole numbers before they are rounded.
-/

namespace InteriorPoint

open Scalar
open Float.Model (UnpackedFloat Format)
open Float.Model.UnpackedFloat (Sign packComponents roundWithAccuracy)

namespace Double

/-- What a double stands for. -/
def reading (x : Float) : UnpackedFloat := x.toModel.unpack

/-- What a result stands for once it is stored as a double. -/
def stored (u : UnpackedFloat) : UnpackedFloat := (Float.Model.pack u).unpack

/-- A finite double reads as a zero or a finite number. -/
theorem cases_of_isFinite {x : Float} (h : isFinite x = true) :
    (∃ s, reading x = .zero s) ∨ ∃ s m e hm, reading x = .finite s m e hm := by
  have h : (reading x).isFinite = true := h
  cases hread : reading x with
  | infinity s => exact nomatch hread ▸ h
  | notANumber => exact nomatch hread ▸ h
  | zero s => exact Or.inl ⟨s, rfl⟩
  | finite s m e hm => exact Or.inr ⟨s, m, e, hm, rfl⟩

/-- A defined double that is not finite reads as an infinity. -/
theorem exists_reading_eq_infinity {x : Float} (hdefined : isNaN x = false)
    (h : isFinite x = false) : ∃ s, reading x = .infinity s := by
  have hdefined : (reading x).isNaN = false := hdefined
  have h : (reading x).isFinite = false := h
  cases hread : reading x with
  | infinity s => exact ⟨s, rfl⟩
  | notANumber => exact nomatch hread ▸ hdefined
  | zero s => exact nomatch hread ▸ h
  | finite s m e hm => exact nomatch hread ▸ h

/-! ## Signs -/

/-- The sign of a defined value. -/
def signOf : UnpackedFloat → Option Sign
  | .infinity s => some s
  | .notANumber => none
  | .zero s => some s
  | .finite s _ _ _ => some s

theorem stored_infinity (s : Sign) : stored (.infinity s) = .infinity s := by
  cases s <;> rfl

theorem stored_zero (s : Sign) : stored (.zero s) = .zero s := by
  cases s <;> rfl

/-- The sign of packed components stands in front of the others. -/
theorem ofBitVec_unpackSign {spec : Format} (s : Sign) (e : BitVec spec.exponentBits)
    (m : BitVec spec.mantissaBitsWithoutImplicit) :
    Sign.ofBitVec (UnpackedFloat.unpackSign (packComponents spec s e m)) = s := by
  have hbits : UnpackedFloat.unpackSign (packComponents spec s e m) = s.toBitVec := by
    ext i hi
    obtain rfl : i = 0 := by omega
    show (BitVec.cast _ (BitVec.extractLsb _ _ (s.toBitVec ++ e ++ m)))[0] = s.toBitVec[0]
    simp +arith [BitVec.getElem_append]
  rw [hbits]
  cases s <;> rfl

/-- Components make up a finite value with their sign unless the exponent is the largest one. -/
theorem unpack_packComponents {spec : Format} (s : Sign) {e : BitVec spec.exponentBits}
    (m : BitVec spec.mantissaBitsWithoutImplicit) (he : e ≠ -1#_) :
    signOf (UnpackedFloat.unpack spec (packComponents spec s e m)) = some s ∧
      (UnpackedFloat.unpack spec (packComponents spec s e m)).isFinite = true := by
  have hsign := congrArg some (ofBitVec_unpackSign s e m)
  unfold UnpackedFloat.unpack
  dsimp only
  rw [UnpackedFloat.unpackExponent_packComponents, if_neg he]
  by_cases hzero : e = 0#_
  · rw [if_pos hzero]
    by_cases hm : UnpackedFloat.unpackMantissa (packComponents spec s e m) = 0#_
    · rw [dif_pos hm]
      exact ⟨hsign, rfl⟩
    · rw [dif_neg hm]
      exact ⟨hsign, rfl⟩
  · rw [if_neg hzero]
    exact ⟨hsign, rfl⟩

/-- **Storing a finite number** keeps its sign, and keeps it finite unless its exponent is too
large. -/
theorem stored_finite (s : Sign) (m : ℕ) (e : ℤ) (hm : 0 < m) :
    signOf (stored (.finite s m e hm)) = some s ∧
      (e ≤ 971 → (stored (.finite s m e hm)).isFinite = true) := by
  show signOf (UnpackedFloat.unpack Format.binary64
      (UnpackedFloat.pack Format.binary64 (.finite s m e hm))) = some s ∧
    (e ≤ 971 → (UnpackedFloat.unpack Format.binary64
      (UnpackedFloat.pack Format.binary64 (.finite s m e hm))).isFinite = true)
  unfold UnpackedFloat.pack
  dsimp only
  split_ifs with hlarge hnormal
  · refine ⟨congrArg signOf (stored_infinity s), fun he => ?_⟩
    simp [Format.exponentBias] at hlarge
    omega
  · -- the exponent of a normal number is below the one of the special values
    refine (unpack_packComponents s _ fun h => ?_).imp_right fun h _ => h
    have htoNat := congrArg BitVec.toNat h
    rw [BitVec.toNat_ofNat, BitVec.neg_one_eq_allOnes, BitVec.toNat_allOnes,
      Nat.mod_eq_of_lt (by omega)] at htoNat
    omega
  · exact (unpack_packComponents s _ (by decide)).imp_right fun h _ => h

/-- **Storing a result** keeps its sign, and keeps it defined. -/
theorem signOf_stored (u : UnpackedFloat) : signOf (stored u) = signOf u := by
  cases u with
  | infinity s => rw [stored_infinity]
  | notANumber => rfl
  | zero s => rw [stored_zero]
  | finite s m e hm => exact (stored_finite s m e hm).1

/-- Storing does not make anything finite. -/
theorem isFinite_of_stored {u : UnpackedFloat} (h : (stored u).isFinite = true) :
    u.isFinite = true := by
  cases u with
  | infinity s =>
    rw [stored_infinity] at h
    exact nomatch h
  | notANumber => exact nomatch h
  | zero s => rfl
  | finite s m e hm => rfl

/-- Rounding keeps the sign. -/
theorem signOf_roundWithAccuracy (spec : Format) (s : Sign) (m : ℕ) (e : ℤ)
    (accuracy : UnpackedFloat.Accuracy) :
    signOf (roundWithAccuracy spec s m e accuracy) = some s :=
  -- a mantissa that is rounded away leaves a zero with the sign
  (apply_dite signOf _ _ _).trans (dite_eq_ite.trans (ite_self _))

/-! ## The order -/

/-- The place of a value in the order, the same one for both zeros. -/
def place : UnpackedFloat → ℤ ×ₗ ℤ ×ₗ ℤ
  | .infinity .negative => toLex (-2, toLex (0, 0))
  | .finite .negative m e _ => toLex (-1, toLex (-e, -m))
  | .finite .positive m e _ => toLex (1, toLex (e, m))
  | .infinity .positive => toLex (2, toLex (0, 0))
  | _ => toLex (0, toLex (0, 0))

theorem compare_neg_neg (a b : ℤ) : compare (-a) (-b) = (compare a b).swap := by
  rw [Int.compare_swap]
  rcases lt_trichotomy a b with h | rfl | h
  · rw [compare_gt_iff_gt.mpr h, compare_gt_iff_gt.mpr (neg_lt_neg h)]
  · rw [compare_eq_iff_eq.mpr rfl, compare_eq_iff_eq.mpr rfl]
  · rw [compare_lt_iff_lt.mpr h, compare_lt_iff_lt.mpr (neg_lt_neg h)]

theorem compare_natCast (a b : ℕ) : compare (a : ℤ) (b : ℤ) = compare a b := by
  rcases lt_trichotomy a b with h | rfl | h
  · rw [compare_lt_iff_lt.mpr h, compare_lt_iff_lt.mpr (Int.ofNat_lt.mpr h)]
  · rw [compare_eq_iff_eq.mpr rfl, compare_eq_iff_eq.mpr rfl]
  · rw [compare_gt_iff_gt.mpr h, compare_gt_iff_gt.mpr (Int.ofNat_lt.mpr h)]

/-- **Defined values are compared by their places**, and undefined ones not at all. -/
theorem compare_eq (u v : UnpackedFloat) : u.compare v
    = if u.isNaN || v.isNaN then none else some (compare (place u) (place v)) := by
  rcases u with (_ | _) | _ | _ | ⟨_ | _, m, e, hm⟩ <;>
    rcases v with (_ | _) | _ | _ | ⟨_ | _, m', e', hm'⟩ <;> try rfl
  -- what is left are finite numbers with the same sign
  case finite.negative.finite.negative =>
    show some ((compare e e').then (compare m m')).swap
      = some ((compare (-e) (-e')).then (compare (-(m : ℤ)) (-(m' : ℤ))))
    rw [compare_neg_neg, compare_neg_neg, compare_natCast, Ordering.swap_then]
  case finite.positive.finite.positive =>
    show some ((compare e e').then (compare m m'))
      = some ((compare e e').then (compare (m : ℤ) (m' : ℤ)))
    rw [compare_natCast]

variable {x y z : Float}

theorem le_iff_reading : x ≤ y ↔ (reading x).le (reading y) = true := decide_eq_true_iff

theorem isNaN_iff : isNaN x = true ↔ reading x = .notANumber := by
  show (reading x).isNaN = true ↔ _
  cases reading x with
  | notANumber => exact iff_of_true rfl rfl
  | _ => exact iff_of_false Bool.false_ne_true nofun

theorem le_iff : x ≤ y ↔ isNaN x = false ∧ isNaN y = false ∧
    place (reading x) ≤ place (reading y) := by
  rw [le_iff_reading, UnpackedFloat.le, compare_eq]
  show _ ↔ (reading x).isNaN = false ∧ (reading y).isNaN = false ∧ _
  cases (reading x).isNaN <;> cases (reading y).isNaN <;>
    simp [Ordering.isLE_iff_ne_gt, compare_gt_iff_gt]

theorem lt_iff : x < y ↔ isNaN x = false ∧ isNaN y = false ∧
    place (reading x) < place (reading y) := by
  have hlt : x < y ↔ (reading x).lt (reading y) = true := decide_eq_true_iff
  rw [hlt, UnpackedFloat.lt, compare_eq]
  show _ ↔ (reading x).isNaN = false ∧ (reading y).isNaN = false ∧ _
  cases (reading x).isNaN <;> cases (reading y).isNaN <;> simp [compare_lt_iff_lt]

/-- **At least zero** are the zeros and what has the positive sign. -/
theorem zero_le_iff :
    0 ≤ x ↔ signOf (reading x) = some .positive ∨ ∃ s, reading x = .zero s := by
  rw [le_iff_reading]
  show UnpackedFloat.le (.zero .positive) _ = true ↔ _
  rcases reading x with (_ | _) | _ | _ | ⟨_ | _, m, e, hm⟩ <;>
    first
    | exact iff_of_true rfl (Or.inl rfl)
    | exact iff_of_true rfl (Or.inr ⟨_, rfl⟩)
    | exact iff_of_false Bool.false_ne_true (not_or.mpr ⟨nofun, nofun⟩)

/-- At most zero are the zeros and what has the negative sign. -/
theorem le_zero_iff :
    x ≤ 0 ↔ signOf (reading x) = some .negative ∨ ∃ s, reading x = .zero s := by
  rw [le_iff_reading]
  show UnpackedFloat.le _ (.zero .positive) = true ↔ _
  rcases reading x with (_ | _) | _ | _ | ⟨_ | _, m, e, hm⟩ <;>
    first
    | exact iff_of_true rfl (Or.inl rfl)
    | exact iff_of_true rfl (Or.inr ⟨_, rfl⟩)
    | exact iff_of_false Bool.false_ne_true (not_or.mpr ⟨nofun, nofun⟩)

/-- Only zeros equal zero. -/
theorem beq_zero_iff : (x == 0) = true ↔ ∃ s, reading x = .zero s := by
  show UnpackedFloat.beq (reading x) (.zero .positive) = true ↔ _
  rcases reading x with (_ | _) | _ | _ | ⟨_ | _, m, e, hm⟩ <;>
    first
    | exact iff_of_true rfl ⟨_, rfl⟩
    | exact iff_of_false Bool.false_ne_true nofun

/-! ## Scalars that go by the rules -/

/-- The result of an operation that is undefined where an operand is. -/
theorem isNaN_of_operand (op : UnpackedFloat → UnpackedFloat → UnpackedFloat)
    (hleft : ∀ v, op .notANumber v = .notANumber) (hright : ∀ u, op u .notANumber = .notANumber)
    (hz : reading z = stored (op (reading x) (reading y))) (h : isNaN x = true ∨ isNaN y = true) :
    isNaN z = true := by
  rw [isNaN_iff, isNaN_iff] at h
  rw [isNaN_iff, hz]
  obtain h | h := h
  · rw [h, hleft]
    rfl
  · rw [h, hright]
    rfl

/-- What is finite and not at most zero reads as a finite number with the positive sign. -/
theorem reading_of_positive (hfinite : isFinite x = true) (h : ¬ x ≤ 0) :
    ∃ m e hm, reading x = .finite .positive m e hm := by
  rw [le_zero_iff, not_or] at h
  obtain ⟨s, hread⟩ | ⟨s, m, e, hm, hread⟩ := cases_of_isFinite hfinite
  · exact absurd ⟨s, hread⟩ h.2
  · cases s with
    | negative => exact absurd (congrArg signOf hread) h.1
    | positive => exact ⟨m, e, hm, hread⟩

/-- A positive finite multiple of what has the positive sign has it as well. -/
theorem signOf_mul {u : UnpackedFloat} {m : ℕ} {e : ℤ} {hm : 0 < m}
    (h : signOf u = some .positive) :
    signOf (UnpackedFloat.mul Format.binary64 (.finite .positive m e hm) u) = some .positive := by
  cases u with
  | infinity s =>
    cases h
    rfl
  | notANumber => exact nomatch h
  | zero s =>
    cases h
    rfl
  | finite s m' e' hm' =>
    cases h
    exact signOf_roundWithAccuracy ..

theorem reading_abs (x : Float) : reading (abs x) = stored (reading x).abs := rfl

theorem isNaN_abs_of_isNaN (h : isNaN x = true) : isNaN (abs x) = true := by
  rw [isNaN_iff, reading_abs, isNaN_iff.mp h]
  rfl

/-- Defined absolute values have the positive sign. -/
theorem signOf_abs (h : isNaN x = false) : signOf (reading (abs x)) = some .positive := by
  have hx : reading x ≠ .notANumber := fun hx =>
    Bool.false_ne_true (h.symm.trans (isNaN_iff.mpr hx))
  rw [reading_abs, signOf_stored]
  cases hread : reading x with
  | notANumber => exact absurd hread hx
  | _ => rfl

theorem reading_abs_of_beq_zero (h : (x == 0) = true) : reading (abs x) = .zero .positive := by
  obtain ⟨s, hs⟩ := beq_zero_iff.mp h
  rw [reading_abs, hs]
  exact stored_zero .positive

/-- What has a sign is defined. -/
theorem isNaN_of_signOf {s : Sign} (h : signOf (reading x) = some s) : isNaN x = false := by
  refine Bool.eq_false_of_not_eq_true fun hx => ?_
  rw [isNaN_iff.mp hx] at h
  exact nomatch h

/-- **The scalars that run** keep what is undefined, and what is defined is in order. -/
instance : OrderRules Float where
  isNaN_add := isNaN_of_operand (UnpackedFloat.add Format.binary64)
    (fun v => by cases v <;> rfl) (fun u => by cases u <;> rfl) rfl
  isNaN_sub := isNaN_of_operand (UnpackedFloat.sub Format.binary64)
    (fun v => by cases v <;> rfl) (fun u => by cases u <;> rfl) rfl
  isNaN_mul := isNaN_of_operand (UnpackedFloat.mul Format.binary64)
    (fun v => by cases v <;> rfl) (fun u => by cases u <;> rfl) rfl
  isNaN_div := isNaN_of_operand (UnpackedFloat.div Format.binary64)
    (fun v => by cases v <;> rfl) (fun u => by cases u <;> rfl) rfl
  isNaN_neg {x} h := by
    show (stored (reading x).neg).isNaN = true
    rw [isNaN_iff.mp h]
    rfl
  isNaN_abs := isNaN_abs_of_isNaN
  not_le_of_isNaN x y h hle := Bool.false_ne_true ((le_iff.mp hle).2.1.symm.trans h)
  beq_zero_of_isNaN {x} h := by
    refine Bool.eq_false_of_not_eq_true fun hbeq => ?_
    obtain ⟨s, hs⟩ := beq_zero_iff.mp hbeq
    exact nomatch hs.symm.trans (isNaN_iff.mp h)
  not_abs_lt_of_beq_zero x z hz hlt := by
    obtain ⟨habs, -, hplace⟩ := lt_iff.mp hlt
    have hx : isNaN x = false := Bool.eq_false_of_not_eq_true fun hx =>
      Bool.false_ne_true (habs.symm.trans (isNaN_abs_of_isNaN hx))
    obtain ⟨-, -, hle⟩ := le_iff.mp (zero_le_iff.mpr (Or.inl (signOf_abs hx)))
    rw [reading_abs_of_beq_zero hz] at hplace
    exact hplace.not_ge hle
  isNaN_abs_of_defined h := isNaN_of_signOf (signOf_abs h)
  le_trans hxy hyz := by
    obtain ⟨hx, -, hxy⟩ := le_iff.mp hxy
    obtain ⟨-, hz, hyz⟩ := le_iff.mp hyz
    exact le_iff.mpr ⟨hx, hz, hxy.trans hyz⟩
  le_of_not_le hx hy h :=
    le_iff.mpr ⟨hy, hx, le_of_not_ge fun hxy => h (le_iff.mpr ⟨hx, hy, hxy⟩)⟩
  zero_le_abs h := zero_le_iff.mpr (Or.inl (signOf_abs h))
  abs_le_zero hz := le_zero_iff.mpr (Or.inr ⟨_, reading_abs_of_beq_zero hz⟩)
  zero_le_mul {t x} ht hpos hx := by
    obtain ⟨m, e, hm, hread⟩ := reading_of_positive ht hpos
    have hmul : reading (t * x)
        = stored (UnpackedFloat.mul Format.binary64 (.finite .positive m e hm) (reading x)) :=
      hread ▸ rfl
    refine zero_le_iff.mpr ?_
    rw [hmul]
    obtain hx | ⟨s, hx⟩ := zero_le_iff.mp hx
    · rw [signOf_stored]
      exact Or.inl (signOf_mul hx)
    · rw [hx]
      exact Or.inr ⟨_, stored_zero _⟩

/-- A difference is not finite unless both terms are. -/
theorem isFinite_of_sub {spec : Format} {u v : UnpackedFloat}
    (h : (UnpackedFloat.sub spec u v).isFinite = true) :
    u.isFinite = true ∧ v.isFinite = true := by
  rcases u with (_ | _) | _ | _ | _ <;> rcases v with (_ | _) | _ | _ | _ <;>
    first
    | exact ⟨rfl, rfl⟩
    | exact nomatch h

/-- **The scalars that run** have a sign. -/
instance : SignRules Float where
  isNaN_or_lt_or_le v := by
    by_cases hv : isNaN v = true
    · exact Or.inl hv
    · have hv : isNaN v = false := Bool.eq_false_of_not_eq_true hv
      rcases lt_or_ge (place (reading v)) (place (reading 0)) with h | h
      · exact Or.inr (Or.inl (lt_iff.mpr ⟨hv, rfl, h⟩))
      · exact Or.inr (Or.inr (le_iff.mpr ⟨rfl, hv, h⟩))
  not_lt_of_isNaN h hlt := Bool.false_ne_true ((lt_iff.mp hlt).1.symm.trans h)
  not_lt_of_le hle hlt := (lt_iff.mp hlt).2.2.not_ge (le_iff.mp hle).2.2

/-- **The scalars that run** have an infinity that no finite bound admits. -/
instance : BoundRules Float where
  isNaN_zero := rfl
  isNaN_one := rfl
  isNaN_infinity := rfl
  lt_iff {x y} := by
    rw [lt_iff, le_iff]
    refine and_congr_right fun hx => and_congr_right fun hy => ?_
    simp [hx, hy]
  not_infinity_le {t} ht hle := by
    have hle : UnpackedFloat.le (.infinity .positive) (reading t) = true := le_iff_reading.mp hle
    obtain ⟨s, hread⟩ | ⟨s, m, e, hm, hread⟩ := cases_of_isFinite ht
    · exact nomatch hread ▸ hle
    · exact nomatch hread ▸ hle
  isFinite_of_sub h := isFinite_of_sub (isFinite_of_stored h)
  abs_eq_infinity {x} hx hfinite := by
    obtain ⟨s, hread⟩ := exists_reading_eq_infinity hx hfinite
    show Float.ofModel (Float.Model.pack (reading x).abs) = _
    rw [hread]
    rfl
  infinity_div {s} hs h := by
    have hs : UnpackedFloat.le (reading 1) (reading s) = true := le_iff_reading.mp hs
    have hdiv : infinity / s = .ofModel (Float.Model.pack
      (UnpackedFloat.div Format.binary64 (.infinity .positive) (reading s))) := rfl
    cases hread : reading s with
    | infinity σ =>
      have hnan : reading (infinity / s) = .notANumber := by
        show stored (UnpackedFloat.div Format.binary64 (.infinity .positive) (reading s)) = _
        rw [hread]
        cases σ <;> rfl
      exact nomatch h.symm.trans (isNaN_iff.mpr hnan)
    | notANumber => exact nomatch hread ▸ hs
    | zero σ => exact nomatch hread ▸ hs
    | finite σ m e hm =>
      cases σ with
      | negative => exact nomatch hread ▸ hs
      | positive =>
        rw [hdiv, hread]
        rfl

/-- **Sums commute.** -/
theorem add_comm (x y : Float) : x + y = y + x := by
  have hadd (u v : UnpackedFloat) :
      UnpackedFloat.add Format.binary64 u v = UnpackedFloat.add Format.binary64 v u := by
    rcases u with (_ | _) | _ | (_ | _) | ⟨s, m, e, hm⟩ <;>
      rcases v with (_ | _) | _ | (_ | _) | ⟨s', m', e', hm'⟩ <;> try rfl
    -- two finite numbers are brought to the smaller of their exponents
    show UnpackedFloat.normalize _ (_ + _) (min e e') _ = UnpackedFloat.normalize _ (_ + _) _ _
    rw [min_comm, Int.add_comm]
  exact congrArg (fun u => Float.ofModel (Float.Model.pack u)) (hadd (reading x) (reading y))

end Double

end InteriorPoint

import InteriorPoint.Proofs.Scalar.Double
import InteriorPoint.Proofs.Scalar.Overflow

/-!
# The range of double-precision numbers

A finite double has a mantissa below `2 ^ 53` and an exponent that is at most 971, and a rounded
result is stored as a finite double if its exponent is. Rounding shifts the mantissa, adds at most
one to it, and shifts once more if this has made it longer, which raises the exponent. At the
largest exponent that must not happen, and it does not if there was room for the one that is added
(`isFinite_stored_roundWithAccuracy`). The product of two mantissas of which one stands for less
than one leaves this room.

So double-precision numbers overflow as the rules ask.
-/

namespace InteriorPoint

open Scalar
open Float.Model (UnpackedFloat Format totalExponent)
open Float.Model.UnpackedFloat (Sign ExtendedMantissa roundWithAccuracy)

namespace Double

variable {x : Float} {s : Sign} {m : ℕ} {e : ℤ} {hm : 0 < m}

/-! ## Finite doubles -/

/-- **The range of the finite doubles.** -/
theorem range_of_reading (h : reading x = .finite s m e hm) : m < 2 ^ 53 ∧ e ≤ 971 := by
  let exponent := @UnpackedFloat.unpackExponent Format.binary64 x.toModel.toBits.toBitVec
  let mantissa := @UnpackedFloat.unpackMantissa Format.binary64 x.toModel.toBits.toBitVec
  unfold reading Float.Model.unpack UnpackedFloat.unpack at h
  dsimp only at h
  by_cases hlargest : exponent = -1#_
  · rw [if_pos hlargest] at h
    by_cases hm : mantissa = 0#_
    · rw [if_pos hm] at h
      cases h
    · rw [if_neg hm] at h
      cases h
  rw [if_neg hlargest] at h
  by_cases hzero : exponent = 0#_
  · rw [if_pos hzero] at h
    by_cases hm : mantissa = 0#_
    · rw [dif_pos hm] at h
      cases h
    · -- subnormal numbers have the smallest exponent
      rw [dif_neg hm] at h
      obtain ⟨-, rfl, rfl⟩ := UnpackedFloat.finite.inj h
      refine ⟨(BitVec.isLt _).trans (by decide), ?_⟩
      show (exponent.toNat : ℤ) - (1023 + 52) + 1 ≤ 971
      rw [hzero]
      decide
  · rw [if_neg hzero] at h
    obtain ⟨-, rfl, rfl⟩ := UnpackedFloat.finite.inj h
    have hne : exponent.toNat ≠ 2047 := fun h => hlargest (BitVec.eq_of_toNat_eq h)
    have hlt : exponent.toNat < 2048 := exponent.isLt
    refine ⟨BitVec.isLt _, ?_⟩
    show (exponent.toNat : ℤ) - (1023 + 52) ≤ 971
    omega

/-! ## Rounding -/

/-- How far the mantissa of a number is shifted to bring the number to its exponent. -/
def shiftOf (m : ℕ) (e : ℤ) : ℕ := (Format.binary64.targetExponent (totalExponent m e) - e).toNat

/-- The shifted and rounded mantissa. -/
def rounded (m : ℕ) (e : ℤ) : ℕ :=
  (ExtendedMantissa.ofMantissaAndAccuracy m .exact >>> shiftOf m e).roundedMantissa

theorem add_shiftOf (m : ℕ) (e : ℤ) : e + shiftOf m e = max e (max (m.log2 + e - 52) (-1074)) := by
  have htarget : Format.binary64.targetExponent (totalExponent m e)
      = max ((m.log2 : ℤ) + 1 + e - 53) (-1074) := rfl
  unfold shiftOf
  omega

theorem mantissa_shiftRight (em : ExtendedMantissa) (k : ℕ) :
    (em >>> k).mantissa = em.mantissa / 2 ^ k := by
  induction k with
  | zero => exact (Nat.div_one _).symm
  | succ k ih =>
    show (em >>> k).mantissa / 2 = _
    rw [ih, Nat.div_div_eq_div_mul, pow_succ]

/-- Rounding adds at most one to a mantissa. -/
theorem roundedMantissa_le (em : ExtendedMantissa) : em.roundedMantissa ≤ em.mantissa + 1 := by
  obtain ⟨m, roundBit, stickyBit⟩ := em
  cases roundBit <;> cases stickyBit <;> show _ ≤ m + 1
  · exact Nat.le_succ m
  · exact Nat.le_succ m
  · exact Nat.add_le_add_left (Nat.le_of_lt_succ (Nat.mod_lt m two_pos)) m
  · exact le_rfl

theorem rounded_le (m : ℕ) (e : ℤ) : rounded m e ≤ m / 2 ^ shiftOf m e + 1 := by
  refine (roundedMantissa_le _).trans_eq ?_
  rw [mantissa_shiftRight]
  rfl

/-- A mantissa that is shifted has 53 digits at most. -/
theorem div_shiftOf_lt (m : ℕ) (e : ℤ) : m / 2 ^ shiftOf m e < 2 ^ 53 := by
  have hshift := add_shiftOf m e
  rw [Nat.div_lt_iff_lt_mul (by positivity), ← pow_add]
  exact Nat.lt_log2_self.trans_le (Nat.pow_le_pow_right two_pos (by omega))

theorem log2_le {k : ℕ} (h : m < 2 ^ (k + 1)) : m.log2 ≤ k := by
  by_cases hm : m = 0
  · simp [hm]
  · exact Nat.le_of_lt_succ ((Nat.log2_lt hm).mpr h)

/-- **The exponent of a rounded number** is in the range if the number is below the largest double
by at least one in the last place. -/
theorem add_shiftOf_rounded_le {k : ℕ} (hm : m < (2 ^ 53 - 1) * 2 ^ k) (he : e + k ≤ 971) :
    e + shiftOf m e + shiftOf (rounded m e) (e + shiftOf m e) ≤ 971 := by
  have hlog : m.log2 ≤ 52 + k := by
    refine log2_le (hm.trans_le ?_)
    rw [add_right_comm, pow_add]
    exact Nat.mul_le_mul_right _ (Nat.sub_le _ 1)
  have hshift : e + shiftOf m e ≤ 971 := by
    rw [add_shiftOf]
    omega
  have hdigits : (rounded m e).log2 + (e + shiftOf m e) ≤ 1023 := by
    have hrounded := rounded_le m e
    by_cases hlargest : e + shiftOf m e = 971
    · -- at the largest exponent there is room for the one that is added
      have hle : m / 2 ^ shiftOf m e ≤ m / 2 ^ k :=
        Nat.div_le_div_left (Nat.pow_le_pow_right two_pos (by omega)) (by positivity)
      have hlt : m / 2 ^ k < 2 ^ 53 - 1 := (Nat.div_lt_iff_lt_mul (by positivity)).mpr hm
      have : (rounded m e).log2 ≤ 52 := log2_le (by omega)
      omega
    · have hlt := div_shiftOf_lt m e
      have : (rounded m e).log2 ≤ 53 := log2_le (by omega)
      omega
  rw [add_shiftOf]
  omega

theorem isFinite_stored_zero (s : Sign) : (stored (.zero s)).isFinite = true :=
  congrArg UnpackedFloat.isFinite (stored_zero s)

/-- **Rounding does not overflow** below the largest double. -/
theorem isFinite_stored_roundWithAccuracy {k : ℕ} (hm : m < (2 ^ 53 - 1) * 2 ^ k)
    (he : e + k ≤ 971) :
    (stored (roundWithAccuracy Format.binary64 s m e .exact)).isFinite = true := by
  refine (apply_dite (fun u => (stored u).isFinite = true) _ _ _).mpr ?_
  refine dite_prop_iff_and.mpr ⟨fun _ => isFinite_stored_zero _, fun _ => ?_⟩
  exact (stored_finite _ _ _ _).2 (add_shiftOf_rounded_le hm he)

/-! ## Products -/

/-- What is below one has a smaller exponent than one, or the same and a smaller mantissa. -/
theorem of_reading_of_lt_one (h : reading x = .finite .positive m e hm) (hlt : x < 1) :
    e ≤ -53 ∨ e = -52 ∧ m < 2 ^ 52 := by
  have hone : reading 1 = .finite .positive (2 ^ 52) (-52) (by positivity) := rfl
  obtain ⟨-, -, hplace⟩ := lt_iff.mp hlt
  rw [h, hone] at hplace
  have hplace : toLex ((1 : ℤ), toLex (e, (m : ℤ))) < toLex (1, toLex (-52, 2 ^ 52)) := hplace
  simp only [Prod.Lex.toLex_lt_toLex, lt_self_iff_false, true_and, false_or] at hplace
  omega

/-- **A multiple by less than one** does not overflow. -/
theorem isFinite_mul {t : Float} (ht : isFinite t = true) (hpos : 0 < t) (hlt : t < 1)
    (hx : isFinite x = true) : isFinite (t * x) = true := by
  obtain ⟨m, e, hm, hread⟩ := reading_of_positive ht (BoundRules.lt_iff.mp hpos).2.2
  show (stored (UnpackedFloat.mul Format.binary64 (reading t) (reading x))).isFinite = true
  rw [hread]
  obtain ⟨s, hreadx⟩ | ⟨s, m', e', hm', hreadx⟩ := cases_of_isFinite hx
  · rw [hreadx]
    exact isFinite_stored_zero _
  · rw [hreadx]
    have hm53 := (range_of_reading hread).1
    obtain ⟨hm53', he'⟩ := range_of_reading hreadx
    have hroom {k : ℕ} (h : m < 2 ^ k) : m * m' < (2 ^ 53 - 1) * 2 ^ k := by
      rw [mul_comm]
      exact Nat.mul_lt_mul_of_le_of_lt (Nat.le_sub_one_of_lt hm53') h (by norm_num)
    rcases of_reading_of_lt_one hread hlt with he | ⟨rfl, hm52⟩
    · exact isFinite_stored_roundWithAccuracy (hroom hm53) (by omega)
    · exact isFinite_stored_roundWithAccuracy (hroom hm52) (by omega)

/-- A product is not finite unless both factors are. -/
theorem isFinite_of_mul {spec : Format} {u v : UnpackedFloat}
    (h : (UnpackedFloat.mul spec u v).isFinite = true) :
    u.isFinite = true ∧ v.isFinite = true := by
  rcases u with (_ | _) | _ | _ | _ <;> rcases v with (_ | _) | _ | _ | _ <;>
    first
    | exact ⟨rfl, rfl⟩
    | exact nomatch h

/-! ## Differences -/

theorem isNaN_eq (u : UnpackedFloat) : u.isNaN = (signOf u).isNone := by
  cases u <;> rfl

/-- Rounding keeps a signed mantissa defined. -/
theorem isNaN_normalize (spec : Format) (m e : ℤ) (s : Sign) :
    (UnpackedFloat.normalize spec m e s).isNaN = false := by
  have hround (s : Sign) (m : ℕ) (e : ℤ) : (UnpackedFloat.round spec s m e).isNaN = false := by
    rw [isNaN_eq]
    exact congrArg Option.isNone (signOf_roundWithAccuracy ..)
  unfold UnpackedFloat.normalize
  split
  · exact hround ..
  · rfl
  · exact hround ..

/-- A difference of defined values is undefined exactly where an infinity is taken off itself. -/
theorem isNaN_sub_iff {spec : Format} {u v : UnpackedFloat} (hu : u.isNaN = false)
    (hv : v.isNaN = false) :
    (UnpackedFloat.sub spec u v).isNaN = true ↔ u.isFinite = false ∧ u.beq v = true := by
  rcases u with (_ | _) | _ | (_ | _) | ⟨s, m, e, hm⟩ <;>
    rcases v with (_ | _) | _ | (_ | _) | ⟨s', m', e', hm'⟩
  case finite.finite => exact iff_of_false (Bool.not_eq_true _ ▸ isNaN_normalize ..) nofun
  -- without two finite numbers no arithmetic is left, and each case computes
  all_goals first
    | exact absurd hu.symm Bool.false_ne_true
    | exact absurd hv.symm Bool.false_ne_true
    | exact iff_of_true rfl ⟨rfl, rfl⟩
    | exact iff_of_false Bool.false_ne_true fun h => Bool.false_ne_true h.1.symm
    | exact iff_of_false Bool.false_ne_true fun h => Bool.false_ne_true h.2

/-! ## Scalars that go by the rules -/

/-- **The scalars that run** overflow by the rules. -/
instance : OverflowRules Float where
  isFinite_one := rfl
  isNaN_of_isFinite {x} h := by
    show (reading x).isNaN = false
    obtain ⟨s, hread⟩ | ⟨s, m, e, hm, hread⟩ := cases_of_isFinite h
    · rw [hread]
      rfl
    · rw [hread]
      rfl
  isFinite_abs {x} h := by
    show (stored (reading x).abs).isFinite = true
    obtain ⟨s, hread⟩ | ⟨s, m, e, hm, hread⟩ := cases_of_isFinite h
    · rw [hread]
      exact isFinite_stored_zero _
    · rw [hread]
      exact (stored_finite _ _ _ _).2 (range_of_reading hread).2
  le_infinity {x} h := by
    have h : (reading x).isNaN = false := h
    refine le_iff_reading.mpr ?_
    show UnpackedFloat.le (reading x) (.infinity .positive) = true
    cases hread : reading x with
    | infinity s => cases s <;> rfl
    | notANumber => exact nomatch hread ▸ h
    | zero s => rfl
    | finite s m e hm => cases s <;> rfl
  infinity_le {x} h hinfinite := by
    obtain ⟨s, hread⟩ := exists_reading_eq_infinity (le_iff.mp h).2.1 hinfinite
    have hsign := zero_le_iff.mp h
    rw [hread] at hsign
    refine le_iff_reading.mpr ?_
    rw [hread]
    cases s with
    | positive => rfl
    | negative => exact hsign.elim nofun nofun
  isFinite_of_mul h := isFinite_of_mul (isFinite_of_stored h)
  isFinite_mul := isFinite_mul
  isNaN_sub_iff {x y} hx hy := by
    show (stored (UnpackedFloat.sub Format.binary64 (reading x) (reading y))).isNaN = true ↔ _
    rw [isNaN_eq, signOf_stored, ← isNaN_eq]
    exact isNaN_sub_iff hx hy

end Double

end InteriorPoint

import ScorePortfolio.Proofs.Number.Unpacked

/-!
# Rounding

The operations on doubles drop digits one after the other, keeping a round bit and a sticky bit, and
round once at the end.  What comes out is the double nearest to the exact result, a tie going to the
even significand.
-/

namespace ScorePortfolio.Binary

open Float.Model
open Float.Model.UnpackedFloat hiding isFinite isNaN

variable {num den : ℕ}

/-! ## Dropping digits -/

/-- A quotient cut to a natural, with the bits that its fraction is rounded by. -/
def cut (num den : ℕ) : ExtendedMantissa :=
  .ofMantissaAndAccuracy (num / den) (accuracyOfFraction (num % den) den)

/-- One bit tells whether the fraction is at least a half, the other whether it is anything else
than nothing or a half. -/
theorem cut_eq (hden : 0 < den) : cut num den =
    ⟨num / den, den ≤ 2 * (num % den), num % den ≠ 0 ∧ 2 * (num % den) ≠ den⟩ := by
  rw [cut, accuracyOfFraction]
  split
  · next hzero => simp [ExtendedMantissa.ofMantissaAndAccuracy, hzero, hden.ne']
  · next hpos =>
    rcases lt_trichotomy (2 * (num % den)) den with hlt | heq | hgt
    · rw [Nat.compare_eq_lt.mpr hlt]
      simp [ExtendedMantissa.ofMantissaAndAccuracy, hpos, hlt, hlt.ne]
    · rw [Nat.compare_eq_eq.mpr heq]
      simp [ExtendedMantissa.ofMantissaAndAccuracy, heq]
    · rw [Nat.compare_eq_gt.mpr hgt]
      simp [ExtendedMantissa.ofMantissaAndAccuracy, hpos, hgt.le, hgt.ne']

@[simp] theorem mantissa_cut (num den : ℕ) : (cut num den).mantissa = num / den := by
  rw [cut]
  rcases accuracyOfFraction (num % den) den with _ | (_ | _ | _) <;> rfl

/-- Another digit is dropped as if the quotient had been cut there in the first place. -/
theorem shiftRightOne_cut (hden : 0 < den) : (cut num den).shiftRightOne = cut num (den * 2) := by
  have hdiv : num / (den * 2) = num / den / 2 := (Nat.div_div_eq_div_mul ..).symm
  have hmod : num % (den * 2) = num % den + den * (num / den % 2) := Nat.mod_mul
  have hlt := Nat.mod_lt num hden
  rw [cut_eq hden, cut_eq (Nat.mul_pos hden two_pos), ExtendedMantissa.shiftRightOne, hdiv, hmod,
    ExtendedMantissa.mk.injEq]
  refine ⟨rfl, Bool.eq_iff_iff.mpr ?_, Bool.eq_iff_iff.mpr ?_⟩
  all_goals
    simp only [bne_iff_ne, Bool.or_eq_true, decide_eq_true_eq]
    rcases Nat.mod_two_eq_zero_or_one (num / den) with hdigit | hdigit
    · rw [hdigit, Nat.mul_zero]
      omega
    · rw [hdigit, Nat.mul_one]
      omega

/-- So are several digits. -/
theorem shiftRight_cut (hden : 0 < den) (n : ℕ) : cut num den >>> n = cut num (den * 2 ^ n) := by
  show n.repeat ExtendedMantissa.shiftRightOne (cut num den) = _
  induction n with
  | zero => rw [Nat.repeat, Nat.pow_zero, Nat.mul_one]
  | succ n ih =>
    rw [Nat.repeat, ih, shiftRightOne_cut (Nat.mul_pos hden (Nat.two_pow_pos n)), Nat.pow_succ,
      Nat.mul_assoc]

/-- The two bits are enough to round half to even. -/
theorem roundedMantissa_cut (num : ℕ) (hden : 0 < den) :
    (cut num den).roundedMantissa = divHalfEven num den := by
  rw [cut, accuracyOfFraction, divHalfEven]
  split
  · next hzero =>
    rw [if_pos (by omega)]
    rfl
  · next hpos =>
    rcases lt_trichotomy (2 * (num % den)) den with hlt | heq | hgt
    · rw [Nat.compare_eq_lt.mpr hlt, if_pos hlt]
      rfl
    · rw [Nat.compare_eq_eq.mpr heq, if_neg heq.not_lt, if_neg heq.not_gt]
      rfl
    · rw [Nat.compare_eq_gt.mpr hgt, if_neg hgt.not_gt, if_pos hgt]
      rfl

/-! ## Rounding once -/

theorem targetExponent_eq (e : ℤ) :
    Format.binary64.targetExponent e = max (e - 53) (-1074) := rfl

theorem targetExponent_totalExponent (m : ℕ) (e : ℤ) :
    Format.binary64.targetExponent (totalExponent m e) = max (m.log2 + e - 52) (-1074) := by
  rw [targetExponent_eq, totalExponent]
  omega

/-- The exponent of a quotient, by which all digits but those of its significand are dropped. -/
theorem targetExponent_of_hasShift {k n : ℕ} {e : ℤ} (hden : 0 < den) (he : e = k - 1074 - n)
    (hlt : num < den * 2 ^ (n + 53)) (hle : k = 0 ∨ den * 2 ^ (n + 52) ≤ num) :
    Format.binary64.targetExponent (totalExponent (num / den) e) = k - 1074 := by
  have hupper : (num / den).log2 < n + 53 := by
    by_cases hzero : num / den = 0
    · simp [hzero]
    · rw [Nat.log2_lt hzero, Nat.div_lt_iff_lt_mul hden, Nat.mul_comm]
      exact hlt
  have hlower : k = 0 ∨ n + 52 ≤ (num / den).log2 := by
    refine hle.imp_right fun hle ↦ ?_
    have hfloor : 2 ^ (n + 52) ≤ num / den := by
      rwa [Nat.le_div_iff_mul_le hden, Nat.mul_comm]
    exact (Nat.le_log2 (Nat.two_pow_pos _ |>.trans_le hfloor).ne').mpr hfloor
  rw [targetExponent_totalExponent]
  omega

theorem cut_one (m : ℕ) : cut m 1 = .ofMantissaAndAccuracy m .exact := by
  rw [cut, Nat.div_one, Nat.mod_one]
  rfl

/-- A significand that fits needs no shift. -/
theorem shiftToTargetExponent_of_lt {m : ℕ} {t : ℤ} (hm : m < 2 ^ 53) (ht : -1074 ≤ t) :
    shiftToTargetExponent .binary64 m t .exact = (cut m 1, t) := by
  have hlog : m.log2 ≤ 52 := by
    by_cases hzero : m = 0
    · simp [hzero]
    · exact Nat.lt_succ_iff.mp ((Nat.log2_lt hzero).mpr hm)
  have hshift : (Format.binary64.targetExponent (totalExponent m t) - t).toNat = 0 := by
    rw [targetExponent_totalExponent]
    omega
  rw [shiftToTargetExponent, shiftToExponent, hshift, cut_one]
  show (_, t + 0) = _
  rw [Int.add_zero]
  rfl

/-- A significand that rounding carried to the next power of two is shifted once more. -/
theorem shiftToTargetExponent_carry {t : ℤ} (ht : -1074 ≤ t) :
    shiftToTargetExponent .binary64 (2 ^ 53) t .exact = (cut (2 ^ 53) 2, t + 1) := by
  have hshift : (Format.binary64.targetExponent (totalExponent (2 ^ 53) t) - t).toNat = 1 := by
    rw [targetExponent_totalExponent, Nat.log2_two_pow]
    omega
  rw [shiftToTargetExponent, shiftToExponent, hshift, ← cut_one]
  show (cut (2 ^ 53) 1 >>> 1, t + 1) = _
  rw [shiftRight_cut one_pos]
  rfl

/-- Digits are dropped once, to the significand that is rounded, and once more if it carries. -/
theorem denotes_roundWithAccuracy {k n : ℕ} {e : ℤ} (negative : Bool) (hden : 0 < den)
    (he : e = k - 1074 - n) (hlt : num < den * 2 ^ (n + 53))
    (hle : k = 0 ∨ den * 2 ^ (n + 52) ≤ num) :
    Denotes negative (roundWithAccuracy .binary64 (signOf negative) (num / den) e
      (accuracyOfFraction (num % den) den)) (k * significands + divHalfEven num (den * 2 ^ n)) := by
  have htarget := targetExponent_of_hasShift hden he hlt hle
  have hshift : ((k : ℤ) - 1074 - e).toNat = n := by omega
  have hfirst : shiftToTargetExponent .binary64 (num / den) e (accuracyOfFraction (num % den) den) =
      (cut num (den * 2 ^ n), (k : ℤ) - 1074) := by
    rw [shiftToTargetExponent, htarget, shiftToExponent, hshift]
    show (cut num den >>> n, e + (n : ℤ)) = _
    rw [shiftRight_cut hden]
    congr 1
    omega
  have hupper := divHalfEven_le_of_lt hden hlt
  have hlower := hle.imp_right (le_divHalfEven_of_le hden)
  have hround := roundedMantissa_cut num (Nat.mul_pos hden (Nat.two_pow_pos n))
  generalize divHalfEven num (den * 2 ^ n) = m at *
  simp only [roundWithAccuracy, hfirst, hround]
  rcases hupper.lt_or_eq with hsmall | rfl
  · simp only [shiftToTargetExponent_of_lt hsmall (show -1074 ≤ (k : ℤ) - 1074 by omega),
      mantissa_cut, Nat.div_one]
    split
    · next hzero =>
      subst hzero
      obtain rfl : k = 0 := hlower.resolve_right (by decide)
      exact .zero
    · exact .finite ⟨hsmall, hlower⟩ _
  · simp only [shiftToTargetExponent_carry (show -1074 ≤ (k : ℤ) - 1074 by omega), mantissa_cut]
    have hhalf : 2 ^ 53 / 2 = 2 ^ 52 := rfl
    rw [dif_neg (by rw [hhalf]; exact (Nat.two_pow_pos 52).ne')]
    refine .of_isSignificand (k := k + 1) ⟨by rw [hhalf]; decide, .inr hhalf.ge⟩ _ ?_ ?_
    · omega
    · rw [Nat.succ_mul, Nat.add_assoc]
      rfl

section Scaled

variable {num' den' i j : ℕ} (hden : 0 < den)
  (hvalue : num' * (den * 2 ^ j) = num * (den' * 2 ^ i))

include hden hvalue

theorem lt_of_hasShift {k : ℕ} (h : HasShift num' den' k) :
    num * (den' * 2 ^ i) < den' * 2 ^ (k + 53) * (den * 2 ^ j) := by
  rw [← hvalue]
  exact Nat.mul_lt_mul_of_pos_right h.lt (Nat.mul_pos hden (Nat.two_pow_pos j))

/-- A quotient with the digits of a significand is not cut below the last of these. -/
theorem le_shift_of_digits {k : ℕ} (h : HasShift num' den' k) (hdigits : 2 ^ 52 ≤ num / den) :
    i ≤ k + j := by
  have hpow : 2 ^ (52 + i) < 2 ^ (k + 53 + j) := by
    refine Nat.lt_of_mul_lt_mul_left (a := den * den') ?_
    calc den * den' * 2 ^ (52 + i)
        _ = 2 ^ 52 * den * (den' * 2 ^ i) := by ring
        _ ≤ num * (den' * 2 ^ i) :=
          Nat.mul_le_mul_right _ ((Nat.le_div_iff_mul_le hden).mp hdigits)
        _ < den' * 2 ^ (k + 53) * (den * 2 ^ j) := lt_of_hasShift hden hvalue h
        _ = den * den' * 2 ^ (k + 53 + j) := by ring
  have := (Nat.pow_lt_pow_iff_right (by decide)).mp hpow
  omega

variable {k n : ℕ} (hpow : 2 ^ k * 2 ^ j = 2 ^ n * 2 ^ i)

include hpow

/-- The significand is the same from either quotient. -/
theorem divHalfEven_scaled (hden' : 0 < den') :
    divHalfEven num' (den' * 2 ^ k) = divHalfEven num (den * 2 ^ n) := by
  refine divHalfEven_congr (Nat.mul_pos hden' (Nat.two_pow_pos k))
    (Nat.mul_pos hden (Nat.two_pow_pos n)) (Nat.eq_of_mul_eq_mul_right (Nat.two_pow_pos j) ?_)
  calc num' * (den * 2 ^ n) * 2 ^ j
      _ = num' * (den * 2 ^ j) * 2 ^ n := by ring
      _ = num * den' * (2 ^ n * 2 ^ i) := by rw [hvalue]; ring
      _ = num * (den' * 2 ^ k) * 2 ^ j := by rw [← hpow]; ring

/-- The quotient that is rounded has no more digits than a significand after its shift. -/
theorem lt_scaled (h : HasShift num' den' k) : num < den * 2 ^ (n + 53) := by
  refine Nat.lt_of_mul_lt_mul_right (a := den' * 2 ^ i)
    ((lt_of_hasShift hden hvalue h).trans_eq ?_)
  calc den' * 2 ^ (k + 53) * (den * 2 ^ j)
      _ = den' * den * 2 ^ 53 * (2 ^ k * 2 ^ j) := by ring
      _ = den * 2 ^ (n + 53) * (den' * 2 ^ i) := by rw [hpow]; ring

omit hden in
/-- Nor has it fewer, unless the value is below the smallest normal double. -/
theorem le_scaled (hden' : 0 < den') (h : HasShift num' den' k) :
    k = 0 ∨ den * 2 ^ (n + 52) ≤ num := by
  refine h.le.imp_right fun hle ↦ ?_
  refine Nat.le_of_mul_le_mul_right ?_ (Nat.mul_pos hden' (Nat.two_pow_pos i))
  calc den * 2 ^ (n + 52) * (den' * 2 ^ i)
      _ = den' * den * 2 ^ 52 * (2 ^ n * 2 ^ i) := by ring
      _ = den' * 2 ^ (k + 52) * (den * 2 ^ j) := by rw [← hpow]; ring
      _ ≤ num' * (den * 2 ^ j) := Nat.mul_le_mul_right _ hle
      _ = num * (den' * 2 ^ i) := hvalue

end Scaled

/-- Rounding, from as many digits as there are in a significand or down to the smallest unit, gives
the double nearest to the exact value. -/
theorem denotes_nearest {num' den' i j : ℕ} {e : ℤ} (negative : Bool) (hden : 0 < den)
    (hden' : 0 < den') (he : e + 1074 = i - j)
    (hvalue : num' * (den * 2 ^ j) = num * (den' * 2 ^ i))
    (hdigits : e ≤ -1074 ∨ 2 ^ 52 ≤ num / den) :
    Denotes negative (roundWithAccuracy .binary64 (signOf negative) (num / den) e
      (accuracyOfFraction (num % den) den)) (nearestBits num' den') := by
  have h := HasShift.log2_div num' hden'
  rw [h.nearestBits_eq hden']
  generalize (num' / den').log2 - 52 = k at *
  have hplaced : e + 1074 ≤ k := by
    rcases hdigits with he' | hdigits
    · omega
    · have := le_shift_of_digits hden hvalue h hdigits
      omega
  -- `n` digits are dropped from the cut quotient to count multiples of `2 ^ k` units
  obtain ⟨n, hn⟩ : ∃ n : ℕ, (k : ℤ) - 1074 - e = n := Int.eq_ofNat_of_zero_le (by omega)
  have hpow : 2 ^ k * 2 ^ j = 2 ^ n * 2 ^ i := by
    rw [← Nat.pow_add, ← Nat.pow_add]
    congr 1
    omega
  rw [divHalfEven_scaled hden hvalue hpow hden']
  exact denotes_roundWithAccuracy negative hden (by omega) (lt_scaled hden hvalue hpow h)
    (le_scaled hvalue hpow hden' h)

/-- The same for a value without a fraction in its smallest digit. -/
theorem denotes_exact {m num den i j : ℕ} {e : ℤ} (negative : Bool) (hden : 0 < den)
    (he : e + 1074 = i - j) (hvalue : num * 2 ^ j = m * (den * 2 ^ i))
    (hdigits : e ≤ -1074 ∨ 2 ^ 52 ≤ m) :
    Denotes negative (roundWithAccuracy .binary64 (signOf negative) m e .exact)
      (nearestBits num den) := by
  have h : Denotes negative (roundWithAccuracy .binary64 (signOf negative) (m / 1) e
      (accuracyOfFraction (m % 1) 1)) (nearestBits num den) :=
    denotes_nearest negative one_pos hden he (by rw [Nat.one_mul, hvalue]) (by rwa [Nat.div_one])
  rw [Nat.div_one, Nat.mod_one] at h
  exact h

/-- A natural is rounded after digits have been added to it where there are too few. -/
theorem denotes_round {m k : ℕ} (negative : Bool) (hm : 0 < m) :
    Denotes negative (UnpackedFloat.round .binary64 (signOf negative) m (k - 1074))
      (nearestBits (m * 2 ^ k) 1) := by
  simp only [UnpackedFloat.round, decreaseExponent, targetExponent_totalExponent, Nat.shiftLeft_eq]
  generalize hs : ((k : ℤ) - 1074 - max ((m.log2 : ℤ) + (k - 1074) - 52) (-1074)).toNat = s
  refine denotes_exact (i := k) (j := s) negative one_pos (by omega) (by ring) ?_
  by_cases hlow : (k : ℤ) - 1074 - s ≤ -1074
  · exact .inl hlow
  right
  calc 2 ^ 52
      _ ≤ 2 ^ (m.log2 + s) := Nat.pow_le_pow_right (by decide) (by omega)
      _ = 2 ^ m.log2 * 2 ^ s := Nat.pow_add ..
      _ ≤ m * 2 ^ s := Nat.mul_le_mul_right _ (Nat.log2_self_le hm.ne')

/-- A whole number of units, shifted to the left, is rounded to the double nearest to it, with its
sign. -/
theorem denotes_normalize {z : ℤ} (hz : z ≠ 0) (k : ℕ) :
    Denotes (z < 0) (UnpackedFloat.normalize .binary64 z (k - 1074) .positive)
      (nearestBits (z.natAbs * 2 ^ k) 1) := by
  rcases lt_or_gt_of_ne hz with hneg | hpos
  · have hround := denotes_round (k := k) true (Int.natAbs_pos.mpr hz)
    rw [UnpackedFloat.normalize, Int.compare_eq_lt.mpr hneg, decide_eq_true hneg]
    rwa [show z.natAbs = (-z).toNat by omega] at hround ⊢
  · have hround := denotes_round (k := k) false (Int.natAbs_pos.mpr hz)
    rw [UnpackedFloat.normalize, Int.compare_eq_gt.mpr hpos, decide_eq_false hpos.not_gt]
    rwa [show z.natAbs = z.toNat by omega] at hround ⊢

end ScorePortfolio.Binary

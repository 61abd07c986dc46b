import ScorePortfolio.Number.Power
import ScorePortfolio.Proofs.Number.Missing

/-!
# When a power has a value

Both series that a power is computed from are in the order of their arguments, the one for the
logarithm also from one power of two to the next, so logarithm and exponential keep order although
they are rounded.  A power is therefore within range where the base is at most one, or the exponent,
and neither is negative: in the second case it is no greater than the largest double has with the
exponent one.
-/

namespace ScorePortfolio

namespace Power

/-! ## Series -/

theorem mul_mono {x x' y y' : ℕ} (hx : x ≤ x') (hy : y ≤ y') : mul x y ≤ mul x' y' :=
  Nat.div_le_div_right (Nat.mul_le_mul hx hy)

/-- The odd series grows with its argument, term by term. -/
theorem oddSeries_mono {square square' : ℕ} (hsquare : square ≤ square') (n : ℕ)
    {power power' : ℕ} (hpower : power ≤ power') (k : ℕ) :
    oddSeries square n power k ≤ oddSeries square' n power' k := by
  induction n generalizing power power' k with
  | zero => exact le_rfl
  | succ n ih =>
    exact Nat.add_le_add (Nat.div_le_div_right hpower) (ih (mul_mono hpower hsquare) _)

/-- So does the exponential series. -/
theorem exponentialSeries_mono {x x' : ℕ} (hx : x ≤ x') (n : ℕ) {term term' : ℕ}
    (hterm : term ≤ term') (k : ℕ) :
    exponentialSeries x n term k ≤ exponentialSeries x' n term' k := by
  induction n generalizing term term' k with
  | zero => exact le_rfl
  | succ n ih =>
    exact Nat.add_le_add hterm (ih (Nat.div_le_div_right (mul_mono hterm hx)) _)

/-! ## Logarithm -/

/-- The logarithm of a ratio grows with the ratio, although each term of its series is cut off. -/
theorem logRatio_mono {num num' den : ℕ} (hden : 0 < den) (h : num ≤ num') :
    logRatio num den ≤ logRatio num' den := by
  have hcross : (num - den) * (num' + den) ≤ (num' - den) * (num + den) := by
    rcases Nat.le_total num den with hle | hle
    · rw [Nat.sub_eq_zero_of_le hle, Nat.zero_mul]
      exact Nat.zero_le _
    · obtain ⟨a, rfl⟩ := Nat.exists_eq_add_of_le hle
      obtain ⟨b, rfl⟩ := Nat.exists_eq_add_of_le h
      have hsub : den + a + b - den = a + b := by omega
      rw [Nat.add_sub_cancel_left, hsub]
      nlinarith [Nat.zero_le (den * b)]
  have ht : (num - den) * one / (num + den) ≤ (num' - den) * one / (num' + den) := by
    rw [Nat.le_div_iff_mul_le (by omega)]
    refine Nat.le_of_mul_le_mul_right ?_ (by omega : 0 < num + den)
    calc (num - den) * one / (num + den) * (num' + den) * (num + den)
        = (num - den) * one / (num + den) * (num + den) * (num' + den) := Nat.mul_right_comm _ _ _
      _ ≤ (num - den) * one * (num' + den) := Nat.mul_le_mul_right _ (Nat.div_mul_le_self _ _)
      _ = (num - den) * (num' + den) * one := Nat.mul_right_comm _ _ _
      _ ≤ (num' - den) * (num + den) * one := Nat.mul_le_mul_right _ hcross
      _ = (num' - den) * one * (num + den) := Nat.mul_right_comm _ _ _
  exact Nat.mul_le_mul_left 2 (oddSeries_mono (mul_mono ht ht) _ ht _)

/-- The logarithm of a number by its half is that of two. -/
theorem logRatio_double {den : ℕ} (hden : 0 < den) : logRatio (2 * den) den = logTwo := by
  have ht : (2 * den - den) * one / (2 * den + den) = (2 - 1) * one / (2 + 1) := by
    have hnum : (2 * den - den) * one = (2 - 1) * one * den := by
      rw [Nat.two_mul, Nat.add_sub_cancel, Nat.mul_comm, Nat.one_mul]
    rw [hnum, ← Nat.succ_mul, Nat.mul_div_mul_right _ _ hden]
  rw [logTwo, logRatio, ht]
  rfl

theorem logTwo_pos : 0 < logTwo := by decide

/-- The fraction of the logarithm to base two of a number of units. -/
def logFraction (units : ℕ) : ℕ := logRatio units (1 <<< units.log2) * one / logTwo

theorem logUnits_eq (units : ℕ) :
    logUnits units = ((units.log2 : ℤ) - 1074) * one + logFraction units := rfl

/-- A significand is below two, and so the logarithm of it to base two is at most one. -/
theorem logFraction_le (units : ℕ) : logFraction units ≤ one := by
  have hpos : 0 < 1 <<< units.log2 := by simp
  have hunits : units ≤ 2 * 1 <<< units.log2 := by
    rw [Nat.shiftLeft_eq, Nat.one_mul, ← Nat.pow_succ']
    exact Nat.lt_log2_self.le
  have hle : logRatio units (1 <<< units.log2) ≤ logTwo :=
    (logRatio_mono hpos hunits).trans_eq (logRatio_double hpos)
  refine (Nat.div_le_div_right (Nat.mul_le_mul_right one hle)).trans_eq ?_
  exact Nat.mul_div_cancel_left _ logTwo_pos

/-- The logarithm keeps order also from one power of two to the next, since that of a significand is
at most one. -/
theorem logUnits_mono {n m : ℕ} (h : n ≤ m) : logUnits n ≤ logUnits m := by
  have hlog : n.log2 ≤ m.log2 := by
    rw [Nat.log2_eq_log_two, Nat.log2_eq_log_two]
    exact Nat.log_mono_right h
  rw [logUnits_eq, logUnits_eq]
  rcases hlog.eq_or_lt with heq | hlt
  · have hfraction : logFraction n ≤ logFraction m := by
      rw [logFraction, logFraction, heq]
      refine Nat.div_le_div_right (Nat.mul_le_mul_right one (logRatio_mono ?_ h))
      simp
    rw [heq]
    omega
  · -- a further power of two is worth as much as the fraction at most
    have hfraction : (logFraction n : ℤ) ≤ one := Int.ofNat_le.mpr (logFraction_le n)
    have hstep : ((n.log2 : ℤ) - 1074) * one + one ≤ ((m.log2 : ℤ) - 1074) * one := by
      rw [← add_one_mul]
      exact mul_le_mul_of_nonneg_right (by omega) (Int.natCast_nonneg _)
    omega

/-! ## Exponential -/

theorem exponential_mono {x x' : ℕ} (h : x ≤ x') : exponential x ≤ exponential x' :=
  exponentialSeries_mono h _ le_rfl _

theorem one_le_exponential (x : ℕ) : one ≤ exponential x := Nat.le_add_right _ _

theorem exponential_logTwo : exponential logTwo ≤ 2 * one := by decide

/-- Two to the fraction of a fixed-point number. -/
def significand (z : ℤ) : ℕ := exponential (mul (z % one).toNat logTwo)

/-- The exponential of a rest that is below the logarithm of two is at most two. -/
theorem significand_le (z : ℤ) : significand z ≤ 2 * one := by
  refine (exponential_mono ?_).trans exponential_logTwo
  have hone : (0 : ℤ) < one := by decide
  have hfraction : (z % one).toNat ≤ one := by
    have hlt := Int.emod_lt_of_pos z hone
    omega
  exact Nat.div_le_of_le_mul (Nat.mul_le_mul_right logTwo hfraction)

/-- The power of two that a unit of the significand is worth. -/
def shift (z : ℤ) : ℤ := z / one + 1074 - precision

/-- Between the limits, an exponential is its significand shifted by its exponent. -/
theorem exponentialBits_eq {z : ℤ} (hlow : ¬ z ≤ (-1200 : ℤ) * one)
    (hhigh : ¬ (1100 : ℤ) * one ≤ z) : exponentialBits z =
      Binary.nearestBits (significand z * 2 ^ (shift z).toNat) (2 ^ (-shift z).toNat) := by
  rw [exponentialBits, if_neg hhigh, if_neg hlow]
  show (if 0 ≤ shift z then Binary.nearestBits (significand z <<< (shift z).toNat) 1
    else Binary.nearestBits (significand z) (1 <<< (-shift z).toNat)) = _
  rw [Nat.shiftLeft_eq, Nat.shiftLeft_eq, Nat.one_mul]
  split
  · next hshift => rw [Int.toNat_eq_zero.mpr (by omega : -shift z ≤ 0), Nat.pow_zero]
  · next hshift => rw [Int.toNat_eq_zero.mpr (by omega : shift z ≤ 0), Nat.pow_zero, Nat.mul_one]

/-- Up to a number that the powers of two of are all taken of, the exponential keeps order. -/
theorem exponentialBits_mono {z z' : ℤ} (h : z ≤ z') (hhigh : z' < (1100 : ℤ) * one) :
    exponentialBits z ≤ exponentialBits z' := by
  have hone : (0 : ℤ) < one := by decide
  by_cases hlow : z ≤ (-1200 : ℤ) * one
  · have hzero : exponentialBits z = 0 := by
      rw [exponentialBits, if_neg (by omega), if_pos hlow]
    rw [hzero]
    exact Nat.zero_le _
  rw [exponentialBits_eq hlow (by omega), exponentialBits_eq (by omega) hhigh.not_ge]
  refine Binary.nearestBits_mono (by positivity) (by positivity) ?_
  have hwhole : z / one ≤ z' / one := Int.ediv_le_ediv hone h
  rcases hwhole.eq_or_lt with heq | hlt
  · have hfraction : significand z ≤ significand z' := by
      refine exponential_mono (mul_mono ?_ le_rfl)
      have hz := Int.emod_add_mul_ediv z one
      have hz' := Int.emod_add_mul_ediv z' one
      rw [heq] at hz
      omega
    rw [shift, shift, heq]
    exact Nat.mul_le_mul_right _ (Nat.mul_le_mul_right _ hfraction)
  · -- one more power of two makes up for the significand
    have hsignificand : significand z ≤ 2 * significand z' :=
      (significand_le z).trans (Nat.mul_le_mul_left 2 (one_le_exponential _))
    have hpowers : 2 * 2 ^ (shift z).toNat * 2 ^ (-shift z').toNat ≤
        2 ^ (shift z').toNat * 2 ^ (-shift z).toNat := by
      rw [← Nat.pow_succ', ← Nat.pow_add, ← Nat.pow_add]
      refine Nat.pow_le_pow_right two_pos ?_
      rw [shift, shift]
      omega
    calc significand z * 2 ^ (shift z).toNat * 2 ^ (-shift z').toNat
        ≤ 2 * significand z' * 2 ^ (shift z).toNat * 2 ^ (-shift z').toNat :=
          Nat.mul_le_mul_right _ (Nat.mul_le_mul_right _ hsignificand)
      _ = significand z' * (2 * 2 ^ (shift z).toNat * 2 ^ (-shift z').toNat) := by ring
      _ ≤ significand z' * (2 ^ (shift z').toNat * 2 ^ (-shift z).toNat) :=
          Nat.mul_le_mul_left _ hpowers
      _ = significand z' * 2 ^ (shift z').toNat * 2 ^ (-shift z).toNat :=
          (Nat.mul_assoc _ _ _).symm

/-- The logarithm of the largest double. -/
def maxLog : ℤ := logUnits (Binary.unitsOfBits (Binary.infinityBits - 1))

-- a shift is evaluated place by place, and the largest double is one by 2045 of them
set_option maxRecDepth 2500 in
theorem maxLog_lt : maxLog < (1100 : ℤ) * one := by decide

set_option maxRecDepth 2500 in
theorem maxLog_nonneg : 0 ≤ maxLog := by decide

set_option maxRecDepth 2500 in
theorem exponentialBits_maxLog : exponentialBits maxLog < Binary.infinityBits := by decide

set_option maxRecDepth 2500 in
theorem logUnits_unitsInOne : logUnits Binary.unitsInOne = 0 := by decide

theorem exponentialBits_lt {z : ℤ} (h : z ≤ maxLog) : exponentialBits z < Binary.infinityBits :=
  (exponentialBits_mono h maxLog_lt).trans_lt exponentialBits_maxLog

open Binary in
/-- A power stays in range if its base is at most one or its exponent is, and is not negative. -/
theorem bits_lt {base exponent : Float} (hbase : base.isFinite = true)
    (hsign : isNegative exponent = false)
    (h : magnitude base ≤ unitsInOne ∨ magnitude exponent ≤ unitsInOne) :
    bits base exponent < infinityBits := by
  have hunits : units exponent = magnitude exponent := by
    rw [units, hsign, if_neg Bool.false_ne_true]
  have hle : logUnits (magnitude base) * magnitude exponent ≤ maxLog * unitsInOne := by
    rcases h with hone | hone
    · have hlog : logUnits (magnitude base) ≤ 0 := (logUnits_mono hone).trans_eq logUnits_unitsInOne
      exact (mul_nonpos_of_nonpos_of_nonneg hlog (Int.natCast_nonneg _)).trans
        (mul_nonneg maxLog_nonneg (Int.natCast_nonneg _))
    · have hlog : logUnits (magnitude base) ≤ maxLog := logUnits_mono (magnitude_le hbase)
      exact (mul_le_mul_of_nonneg_right hlog (Int.natCast_nonneg _)).trans
        (mul_le_mul_of_nonneg_left (Int.ofNat_le.mpr hone) maxLog_nonneg)
  refine exponentialBits_lt (Int.ediv_le_of_le_mul (Int.natCast_pos.mpr (by decide)) ?_)
  rw [hunits]
  exact hle

end Power

/-- A power without a value is one of finite doubles, and beyond the range. -/
theorem Binary.power_eq_none {base exponent : Float} (h : power base exponent = none) :
    base.isFinite = true ∧ infinityBits ≤ Power.bits base exponent := by
  rw [power] at h
  split at h
  · cases h
  split at h
  · cases h
  split at h
  · next hfinite =>
    refine ⟨(Bool.and_eq_true _ _ ▸ hfinite).1, ?_⟩
    simp only at h
    split at h
    · next hbits => exact hbits
    · cases h
  · split at h <;> cases h

end ScorePortfolio

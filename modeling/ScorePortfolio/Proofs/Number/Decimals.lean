import ScorePortfolio.Decimal.Literal
import ScorePortfolio.Decimal.Shortest
import ScorePortfolio.Proofs.Number.Closest

/-!
# Decimals

A decimal is a natural times a power of ten.  The number of bits of a natural tells its power of ten
up to a few places, since `2 ^ 100000` and `10 ^ 30103` differ by less than a factor of two; this
places the leading digit of a quotient, and it tells which decimals lie so far outside the range of
the doubles that their powers need not be computed.  So a decimal is read to the nearest double,
whatever its exponent.
-/

namespace ScorePortfolio.Decimal

open Binary

/-! ## Powers of two between powers of ten -/

section Ratio

variable {a b : ℕ} {n : ℤ} (ha : 0 < a) (hlow : (2 : ℚ) ^ a ≤ 10 ^ b)
  (hhigh : (10 : ℚ) ^ b ≤ 2 * 2 ^ a)

include hlow hhigh

/-- The ratio of the two powers lies between one and two, so its powers up to the `a`th lie between
`2 ^ (-a)` and `2 ^ a`. -/
theorem ratio_zpow_le (hn : n ≤ a) : ((10 : ℚ) ^ b / 2 ^ a) ^ n ≤ 2 ^ a := by
  have hone : (1 : ℚ) ≤ 10 ^ b / 2 ^ a := (one_le_div (by positivity)).mpr hlow
  have htwo : (10 : ℚ) ^ b / 2 ^ a ≤ 2 := (div_le_iff₀ (by positivity)).mpr hhigh
  calc ((10 : ℚ) ^ b / 2 ^ a) ^ n
      _ ≤ (10 ^ b / 2 ^ a) ^ (a : ℤ) := zpow_le_zpow_right₀ hone hn
      _ = (10 ^ b / 2 ^ a) ^ a := zpow_natCast ..
      _ ≤ 2 ^ a := pow_le_pow_left₀ (by positivity) htwo a

/-- Powers of ten exceed those of two with the exponents in the ratio by `2 ^ a` at most. -/
theorem ten_zpow_mul_le (hn : n ≤ a) : (10 : ℚ) ^ (b * n) ≤ 2 ^ (a * n) * 2 ^ a := by
  have hratio := ratio_zpow_le hlow hhigh hn
  rw [div_zpow, div_le_iff₀ (by positivity), mul_comm] at hratio
  rwa [zpow_mul, zpow_mul, zpow_natCast, zpow_natCast]

/-- Nor do powers of two exceed those of ten by more. -/
theorem two_zpow_mul_le (hn : -a ≤ n) : (2 : ℚ) ^ (a * n) ≤ 10 ^ (b * n) * 2 ^ a := by
  have hratio := ratio_zpow_le hlow hhigh (show -n ≤ a by omega)
  rw [zpow_neg, inv_le_iff_one_le_mul₀ (by positivity), div_zpow, mul_div_assoc',
    one_le_div (by positivity), mul_comm] at hratio
  rwa [zpow_mul, zpow_mul, zpow_natCast, zpow_natCast]

include ha

/-- The place before the one that the ratio gives has a power of ten that is no larger than the
power of two. -/
theorem ten_zpow_le_of_ratio (hn : n ≤ a) : (10 : ℚ) ^ (n * b / a - 1) ≤ 2 ^ n := by
  have hfloor := Int.mul_ediv_self_le (x := n * b) (k := a) (by omega)
  generalize n * b / a = f at *
  refine (pow_le_pow_iff_left₀ (by positivity) (by positivity) ha.ne').mp ?_
  have hpow : (2 : ℚ) ^ a ≤ 10 ^ (a : ℤ) := by
    rw [zpow_natCast]
    exact pow_le_pow_left₀ (by norm_num) (by norm_num) a
  calc ((10 : ℚ) ^ (f - 1)) ^ a
      _ = 10 ^ (a * f - a) := by rw [← zpow_natCast, ← zpow_mul]; ring_nf
      _ ≤ 10 ^ (b * n - a) := zpow_le_zpow_right₀ (by norm_num) (by linarith)
      _ = 10 ^ (b * n) / 10 ^ (a : ℤ) := zpow_sub₀ (by norm_num) ..
      _ ≤ 2 ^ (a * n) * 2 ^ a / 10 ^ (a : ℤ) := by
        gcongr
        exact ten_zpow_mul_le hlow hhigh hn
      _ ≤ 2 ^ (a * n) := by
        rw [div_le_iff₀ (by positivity)]
        gcongr
      _ = ((2 : ℚ) ^ n) ^ a := by rw [← zpow_natCast (2 ^ n), ← zpow_mul, mul_comm]

/-- Four places further on, the power of ten is no smaller than four times the power of two. -/
theorem two_zpow_le_of_ratio (hn : -a ≤ n) : (2 : ℚ) ^ (n + 2) ≤ 10 ^ (n * b / a + 4) := by
  have hfloor := Int.lt_mul_ediv_self_add (x := n * b) (k := a) (by omega)
  generalize n * b / a = f at *
  refine (pow_le_pow_iff_left₀ (by positivity) (by positivity) ha.ne').mp ?_
  have hpow : (2 : ℚ) ^ a * 2 ^ (a * 2) ≤ 10 ^ (a * 3 : ℤ) := by
    rw [← pow_add, ← zpow_natCast 2, show ((a + a * 2 : ℕ) : ℤ) = a * 3 by push_cast; ring]
    exact zpow_le_zpow_left₀ (by positivity) (by norm_num) (by norm_num)
  calc ((2 : ℚ) ^ (n + 2)) ^ a
      _ = 2 ^ (a * n) * 2 ^ (a * 2) := by
        rw [← zpow_natCast, ← zpow_natCast 2, ← zpow_mul, ← zpow_add₀ (by norm_num)]
        congr 1
        push_cast
        ring
      _ ≤ 10 ^ (b * n) * 2 ^ a * 2 ^ (a * 2) := by
        gcongr
        exact two_zpow_mul_le hlow hhigh hn
      _ ≤ 10 ^ (b * n) * 10 ^ (a * 3 : ℤ) := by
        rw [mul_assoc]
        gcongr
      _ = 10 ^ (b * n + a * 3 : ℤ) := (zpow_add₀ (by norm_num) ..).symm
      _ ≤ 10 ^ (a * (f + 4) : ℤ) := zpow_le_zpow_right₀ (by norm_num) (by linarith)
      _ = ((10 : ℚ) ^ (f + 4)) ^ a := by rw [← zpow_natCast (10 ^ (f + 4)), ← zpow_mul, mul_comm]

end Ratio

theorem two_pow_le_ten_pow : (2 : ℚ) ^ 100000 ≤ 10 ^ 30103 := by
  have h : 2 ^ 100000 ≤ 10 ^ 30103 := by decide +kernel
  exact_mod_cast h

theorem ten_pow_le_two_pow : (10 : ℚ) ^ 30103 ≤ 2 * 2 ^ 100000 := by
  have h : 10 ^ 30103 ≤ 2 * 2 ^ 100000 := by decide +kernel
  exact_mod_cast h

/-- The power of ten that is taken for a power of two does not exceed it. -/
theorem ten_zpow_le_two_zpow {n : ℤ} (h : n ≤ 100000) :
    (10 : ℚ) ^ (n * 30103 / 100000 - 1) ≤ 2 ^ n :=
  ten_zpow_le_of_ratio (by decide) two_pow_le_ten_pow ten_pow_le_two_pow h

/-- The power of ten that is taken for a power of two falls short of it by few places. -/
theorem two_zpow_le_ten_zpow {n : ℤ} (h : -100000 ≤ n) :
    (2 : ℚ) ^ (n + 2) ≤ 10 ^ (n * 30103 / 100000 + 4) :=
  two_zpow_le_of_ratio (by decide) two_pow_le_ten_pow ten_pow_le_two_pow h

/-! ## Scaled quotients -/

variable {num den : ℕ} {k : ℤ}

theorem scaleTen_pos (num : ℕ) (hden : 0 < den) (k : ℤ) : 0 < (scaleTen num den k).2 := by
  rw [scaleTen]
  split
  · exact hden
  · exact Nat.mul_pos hden (Nat.pow_pos (by decide))

/-- Scaling a quotient by a power of ten, of either sign, multiplies its value by that power. -/
theorem scaleTen_div (num den : ℕ) (k : ℤ) :
    ((scaleTen num den k).1 : ℚ) / (scaleTen num den k).2 = num / den * 10 ^ k := by
  have hcast (j : ℕ) : ((Nat.pow 10 j : ℕ) : ℚ) = 10 ^ (j : ℤ) := by
    rw [Nat.pow_eq, Nat.cast_pow, Nat.cast_ofNat, zpow_natCast]
  rw [scaleTen]
  split
  · next h => rw [Nat.cast_mul, hcast, Int.toNat_of_nonneg h, mul_div_right_comm]
  · next h =>
    rw [Nat.cast_mul, hcast, Int.toNat_of_nonneg (by omega), zpow_neg, ← div_div, div_inv_eq_mul]

/-- The test compares a power of ten with the quotient. -/
theorem tenPowerLE_iff (num : ℕ) (hden : 0 < den) (k : ℤ) :
    tenPowerLE k num den = true ↔ (10 : ℚ) ^ k ≤ num / den := by
  have hpos := scaleTen_pos num hden (-k)
  have hvalue := scaleTen_div num den (-k)
  rw [zpow_neg, ← div_eq_mul_inv] at hvalue
  rw [tenPowerLE, decide_eq_true_iff, ← one_le_div₀ (by positivity : (0 : ℚ) < 10 ^ k), ← hvalue,
    one_le_div₀ (Nat.cast_pos.mpr hpos), Nat.cast_le]

/-! ## The leading digit -/

/-- The climb from a power of ten below the quotient, with enough steps to get above it, ends at the
last power that is not above. -/
theorem climb_bounds {fuel : ℕ} (hden : 0 < den) (hlow : (10 : ℚ) ^ k ≤ num / den)
    (hhigh : (num / den : ℚ) < 10 ^ (k + fuel + 1)) :
    (10 : ℚ) ^ climb num den fuel k ≤ num / den ∧
      (num / den : ℚ) < 10 ^ (climb num den fuel k + 1) := by
  induction fuel generalizing k with
  | zero => exact ⟨hlow, by simpa [climb] using hhigh⟩
  | succ fuel ih =>
    rw [climb]
    split
    · next h =>
      refine ih ((tenPowerLE_iff num hden _).mp h) (hhigh.trans_eq ?_)
      congr 1
      push_cast
      ring
    · next h => exact ⟨hlow, lt_of_not_ge (mt (tenPowerLE_iff num hden _).mpr h)⟩

/-- The integral logarithm puts a natural between two powers of two. -/
theorem two_zpow_log2 {n : ℕ} (h : 0 < n) :
    (2 : ℚ) ^ (n.log2 : ℤ) ≤ n ∧ (n : ℚ) < 2 ^ (n.log2 + 1 : ℤ) := by
  refine ⟨?_, ?_⟩
  · rw [zpow_natCast]
    exact_mod_cast Nat.log2_self_le h.ne'
  · have hlt := Nat.lt_log2_self (n := n)
    rw [← Nat.cast_succ, zpow_natCast]
    exact_mod_cast hlt

/-- The leading digit of a quotient counts the greatest power of ten that does not exceed it, if
the parts of the quotient have not too many bits. -/
theorem exponent_bounds (hnum : 0 < num) (hden : 0 < den) (hn : num.log2 < 100000)
    (hd : den.log2 < 99999) : (10 : ℚ) ^ exponent num den ≤ num / den ∧
      (num / den : ℚ) < 10 ^ (exponent num den + 1) := by
  obtain ⟨hnumLow, hnumHigh⟩ := two_zpow_log2 hnum
  obtain ⟨hdenLow, hdenHigh⟩ := two_zpow_log2 hden
  have hpos : (0 : ℚ) < den := Nat.cast_pos.mpr hden
  rw [exponent]
  refine climb_bounds hden ?_ ?_
  · refine (ten_zpow_le_two_zpow (by omega)).trans ?_
    rw [le_div_iff₀ hpos]
    calc (2 : ℚ) ^ ((num.log2 : ℤ) - den.log2 - 1) * den
        _ ≤ 2 ^ ((num.log2 : ℤ) - den.log2 - 1) * 2 ^ (den.log2 + 1 : ℤ) := by gcongr
        _ = 2 ^ (num.log2 : ℤ) := by rw [← zpow_add₀ (by norm_num)]; ring_nf
        _ ≤ num := hnumLow
  · have hquotient : (num / den : ℚ) < 2 ^ ((num.log2 : ℤ) - den.log2 - 1 + 2) := by
      rw [div_lt_iff₀ hpos]
      calc (num : ℚ)
          _ < 2 ^ (num.log2 + 1 : ℤ) := hnumHigh
          _ = 2 ^ ((num.log2 : ℤ) - den.log2 - 1 + 2) * 2 ^ (den.log2 : ℤ) := by
            rw [← zpow_add₀ (by norm_num)]; ring_nf
          _ ≤ 2 ^ ((num.log2 : ℤ) - den.log2 - 1 + 2) * den := by gcongr
    refine (hquotient.trans_le (two_zpow_le_ten_zpow (by omega))).trans_eq ?_
    congr 1
    push_cast
    ring

/-! ## Reading to the nearest double -/

/-- The magnitude nearest to a decimal. -/
theorem bitsNearest_decimal (m : ℕ) (k : ℤ) : bitsNearest (m * 10 ^ k) =
    nearestBits ((scaleTen m 1 k).1 * unitsInOne) (scaleTen m 1 k).2 := by
  rw [← bitsNearest_div _ (scaleTen_pos m one_pos k), scaleTen_div m 1, Nat.cast_one, div_one]

theorem readsBack_iff {bits m : ℕ} :
    readsBack bits m k = true ↔ bitsNearest (m * 10 ^ k) = bits := by
  rw [bitsNearest_decimal]
  exact beq_iff_eq

/-- A value this small is rounded to zero. -/
theorem bitsNearest_tiny : bitsNearest (10 ^ (-397 : ℤ)) = 0 := by
  have hzero : nearestBits (1 * unitsInOne) (10 ^ 397) = 0 := by decide +kernel
  have hvalue : (10 : ℚ) ^ (-397 : ℤ) = (1 : ℕ) / (10 ^ 397 : ℕ) := by
    rw [zpow_neg, zpow_ofNat, Nat.cast_one, Nat.cast_pow, Nat.cast_ofNat, one_div]
  rw [hvalue, bitsNearest_div 1 (by positivity), hzero]

/-- A value this large is rounded to infinity. -/
theorem le_bitsNearest_huge : infinityBits ≤ bitsNearest (10 ^ (400 : ℤ)) := by
  have hhuge : infinityBits ≤ nearestBits (10 ^ 400 * unitsInOne) 1 := by decide +kernel
  have hvalue : (10 : ℚ) ^ (400 : ℤ) = (10 ^ 400 : ℕ) / (1 : ℕ) := by
    rw [zpow_ofNat, Nat.cast_one, Nat.cast_pow, Nat.cast_ofNat, div_one]
  rwa [hvalue, bitsNearest_div _ one_pos]

theorem ofBits_of_le {negative : Bool} {bits : ℕ} (h : infinityBits ≤ bits) :
    ofBits negative bits = ofBits negative infinityBits := by
  rw [ofBits, ofBits, Nat.min_eq_right h, Nat.min_self]

/-- A decimal is read to the nearest double, whatever its power of ten. -/
theorem nearestDecimal_eq {m : ℕ} (negative : Bool) (k : ℤ) (h : m.log2 ≤ 100000) :
    nearestDecimal negative m k = ofBits negative (bitsNearest (m * 10 ^ k)) := by
  rcases Nat.eq_zero_or_pos m with rfl | hm
  · rw [nearestDecimal, if_pos (.inl rfl), Nat.cast_zero, zero_mul, bitsNearest_zero]
  obtain ⟨hlow, hhigh⟩ := two_zpow_log2 hm
  have hpos : (0 : ℚ) < m * 10 ^ k := by positivity
  have hpow : (0 : ℚ) < 10 ^ k := by positivity
  rw [nearestDecimal]
  split
  · next hfirst =>
    have hfirst := hfirst.resolve_left hm.ne'
    have htiny : (m * 10 ^ k : ℚ) ≤ 10 ^ (-397 : ℤ) := by
      calc (m * 10 ^ k : ℚ)
          _ ≤ 2 ^ (m.log2 + 2 : ℤ) * 10 ^ k := by
            gcongr
            exact hhigh.le.trans (zpow_le_zpow_right₀ (by norm_num) (by omega))
          _ ≤ 10 ^ ((m.log2 : ℤ) * 30103 / 100000 + 4) * 10 ^ k := by
            gcongr
            exact two_zpow_le_ten_zpow (by omega)
          _ = 10 ^ ((m.log2 : ℤ) * 30103 / 100000 + 4 + k) := (zpow_add₀ (by norm_num) ..).symm
          _ ≤ 10 ^ (-397 : ℤ) := zpow_le_zpow_right₀ (by norm_num) (by omega)
    have hzero := bitsNearest_mono hpos.le htiny
    rw [bitsNearest_tiny, Nat.le_zero] at hzero
    rw [hzero]
  next hfirst =>
  split
  · next hlast =>
    have hhuge : (10 : ℚ) ^ (400 : ℤ) ≤ m * 10 ^ k := by
      calc (10 : ℚ) ^ (400 : ℤ)
          _ ≤ 10 ^ ((m.log2 : ℤ) * 30103 / 100000 - 1 + k) :=
            zpow_le_zpow_right₀ (by norm_num) (by omega)
          _ = 10 ^ ((m.log2 : ℤ) * 30103 / 100000 - 1) * 10 ^ k := zpow_add₀ (by norm_num) ..
          _ ≤ 2 ^ (m.log2 : ℤ) * 10 ^ k := by
            gcongr
            exact ten_zpow_le_two_zpow (by omega)
          _ ≤ m * 10 ^ k := by gcongr
    exact (ofBits_of_le (le_bitsNearest_huge.trans (bitsNearest_mono (by positivity) hhuge))).symm
  · rw [bitsNearest_decimal, scaleTen]
    split
    · rfl
    · rw [Nat.one_mul]; rfl

end ScorePortfolio.Decimal

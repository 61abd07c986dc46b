import ScorePortfolio.Proofs.Number.Totals

/-!
# The closest double

Rounding to nearest picks a magnitude at the least distance, and magnitudes that can be written keep
a distance from each other that grows with them: two that differ by less than one part in `2 ^ 53`
are the same.  So a number within one part in `2 ^ 54` of a magnitude that can be written is rounded
to that magnitude.
-/

namespace ScorePortfolio

variable {num den : ℕ}

/-! ## Closest naturals -/

/-- A rounded quotient is off by a half at most. -/
theorem abs_divHalfEven_sub_le (num : ℕ) (hden : 0 < den) :
    |(divHalfEven num den : ℚ) - num / den| ≤ 1 / 2 := by
  have hpos : (0 : ℚ) < den := Nat.cast_pos.mpr hden
  have hsplit : (num : ℚ) / den = (num / den : ℕ) + (num % den : ℕ) / den := by
    rw [← mul_right_inj' hpos.ne', mul_add, mul_div_cancel₀ _ hpos.ne', mul_div_cancel₀ _ hpos.ne']
    exact_mod_cast (Nat.div_add_mod num den).symm
  have hrest : ((num % den : ℕ) : ℚ) / den < 1 :=
    (div_lt_one hpos).mpr (Nat.cast_lt.mpr (Nat.mod_lt num hden))
  have hnonneg : (0 : ℚ) ≤ (num % den : ℕ) / den := by positivity
  rw [hsplit, abs_le]
  rcases divHalfEven_cases num den with ⟨heq, hhalf⟩ | ⟨heq, hhalf⟩
  · have hhalf : ((num % den : ℕ) : ℚ) / den ≤ 1 / 2 := by
      rw [div_le_div_iff₀ hpos two_pos]
      exact_mod_cast (by omega : num % den * 2 ≤ 1 * den)
    rw [heq]
    constructor <;> linarith
  · have hhalf : (1 : ℚ) / 2 ≤ (num % den : ℕ) / den := by
      rw [div_le_div_iff₀ two_pos hpos]
      exact_mod_cast (by omega : 1 * den ≤ num % den * 2)
    rw [heq, Nat.cast_succ]
    constructor <;> linarith

/-- No natural is closer to a number than one that is off by a half at most. -/
theorem closest_of_le_half {n : ℕ} {x : ℚ} (h : |(n : ℚ) - x| ≤ 1 / 2) (m : ℕ) :
    |(n : ℚ) - x| ≤ |(m : ℚ) - x| := by
  obtain ⟨hlow, hhigh⟩ := abs_le.mp h
  rcases lt_trichotomy n m with hlt | rfl | hgt
  · have hstep : (n : ℚ) + 1 ≤ m := by exact_mod_cast hlt
    have hright := le_abs_self ((m : ℚ) - x)
    linarith
  · exact le_rfl
  · have hstep : (m : ℚ) + 1 ≤ n := by exact_mod_cast hgt
    have hleft := neg_le_abs ((m : ℚ) - x)
    linarith

namespace Binary

/-! ## Closest magnitudes -/

section Closest

variable {k : ℕ}

/-- A rounded magnitude counts multiples of the power of two that its significand does. -/
theorem HasShift.unitsOfBits_nearestBits (hden : 0 < den) (h : HasShift num den k) :
    unitsOfBits (nearestBits num den) = divHalfEven num (den * 2 ^ k) * 2 ^ k := by
  have hupper := divHalfEven_le_of_lt hden h.lt
  have hlower := h.le.imp_right (le_divHalfEven_of_le hden)
  rw [h.nearestBits_eq hden]
  generalize divHalfEven num (den * 2 ^ k) = m at *
  rcases hupper.lt_or_eq with hlt | rfl
  · exact IsSignificand.unitsOfBits_eq ⟨hlt, hlower⟩
  · -- the significand carries to the next power of two
    have hcarry : k * significands + 2 ^ 53 = (k + 1) * significands + 2 ^ 52 := by
      rw [show significands = 2 ^ 52 from rfl]
      ring
    have hnext : IsSignificand (2 ^ 52) (k + 1) := ⟨by decide, .inr le_rfl⟩
    rw [hcarry, hnext.unitsOfBits_eq]
    ring

/-- Among the multiples of the power of two, the rounded magnitude is a closest one. -/
theorem HasShift.closest_multiple (hden : 0 < den) (h : HasShift num den k) (t : ℕ) :
    |(unitsOfBits (nearestBits num den) : ℚ) - num / den| ≤ |(t * 2 ^ k : ℚ) - num / den| := by
  have hpow : (0 : ℚ) < 2 ^ k := by positivity
  have hscale (n : ℕ) : |(n * 2 ^ k : ℚ) - num / den| =
      |(n : ℚ) - num / (den * 2 ^ k : ℕ)| * 2 ^ k := by
    rw [← abs_of_pos hpow, ← abs_mul, abs_of_pos hpow, sub_mul, Nat.cast_mul, Nat.cast_pow,
      Nat.cast_ofNat, ← div_div, div_mul_cancel₀ _ hpow.ne']
  have hhalf := abs_divHalfEven_sub_le num (Nat.mul_pos hden (Nat.two_pow_pos k))
  rw [h.unitsOfBits_nearestBits hden, Nat.cast_mul, Nat.cast_pow, Nat.cast_ofNat, hscale, hscale]
  exact mul_le_mul_of_nonneg_right (closest_of_le_half hhalf t) hpow.le

/-- No magnitude that can be written is closer to a quotient than the one it is rounded to. -/
theorem nearestBits_closest (num : ℕ) (hden : 0 < den) (bits : ℕ) :
    |(unitsOfBits (nearestBits num den) : ℚ) - num / den| ≤
      |(unitsOfBits bits : ℚ) - num / den| := by
  have h := HasShift.log2_div num hden
  generalize (num / den).log2 - 52 = k at h
  obtain ⟨m, k', hs, rfl⟩ := exists_isSignificand bits
  rw [hs.unitsOfBits_eq]
  rcases le_or_gt k k' with hk | hk
  · obtain ⟨j, rfl⟩ := Nat.exists_eq_add_of_le hk
    have hmultiple : ((m * 2 ^ (k + j) : ℕ) : ℚ) = (m * 2 ^ j : ℕ) * 2 ^ k := by
      push_cast
      ring
    rw [hmultiple]
    exact h.closest_multiple hden _
  · -- a magnitude with a finer step lies below a multiple of the step that is below the quotient
    have hbelow : m * 2 ^ k' ≤ 2 ^ 52 * 2 ^ k := by
      calc m * 2 ^ k'
          _ ≤ 2 ^ 53 * 2 ^ k' := Nat.mul_le_mul_right _ hs.lt.le
          _ = 2 ^ 52 * 2 ^ (k' + 1) := by ring
          _ ≤ 2 ^ 52 * 2 ^ k := Nat.mul_le_mul_left _ (Nat.pow_le_pow_right two_pos hk)
    have hquotient : ((2 ^ 52 : ℕ) * 2 ^ k : ℚ) ≤ num / den := by
      rw [le_div_iff₀ (Nat.cast_pos.mpr hden)]
      have hle := h.le.resolve_left (by omega)
      rw [Nat.add_comm, Nat.pow_add, Nat.mul_comm] at hle
      exact_mod_cast hle
    have hcast : ((m * 2 ^ k' : ℕ) : ℚ) ≤ (2 ^ 52 : ℕ) * 2 ^ k := by exact_mod_cast hbelow
    refine (h.closest_multiple hden (2 ^ 52)).trans ?_
    rw [abs_sub_comm, abs_sub_comm ((m * 2 ^ k' : ℕ) : ℚ), abs_of_nonneg (sub_nonneg.mpr hquotient),
      abs_of_nonneg (sub_nonneg.mpr (hcast.trans hquotient))]
    exact sub_le_sub_left hcast _

end Closest

/-! ## Distances -/

theorem unitsOfBits_injective : Function.Injective unitsOfBits := fun a b h ↦ by
  rw [← nearestBits_unitsOfBits a, h, nearestBits_unitsOfBits]

/-- Magnitudes that differ by less than one part in `2 ^ 53` are the same. -/
theorem eq_of_close {bits bits' : ℕ}
    (h : 2 ^ 53 * |(unitsOfBits bits' : ℚ) - unitsOfBits bits| < unitsOfBits bits) :
    bits' = bits := by
  obtain ⟨m, k, hs, rfl⟩ := exists_isSignificand bits
  obtain ⟨m', k', hs', rfl⟩ := exists_isSignificand bits'
  refine unitsOfBits_injective ?_
  rw [hs.unitsOfBits_eq, hs'.unitsOfBits_eq] at *
  have hunits : 2 ^ 53 * |((m' * 2 ^ k' : ℕ) : ℤ) - (m * 2 ^ k : ℕ)| < (m * 2 ^ k : ℕ) := by
    exact_mod_cast h
  rcases le_or_gt k k' with hk | hk
  · -- both are multiples of one step, and the distance is less than a step
    obtain ⟨j, rfl⟩ := Nat.exists_eq_add_of_le hk
    have hstep : ((m' * 2 ^ (k + j) : ℕ) : ℤ) - (m * 2 ^ k : ℕ) =
        ((m' * 2 ^ j : ℕ) - m) * 2 ^ k := by
      push_cast
      ring
    have hlt : |((m' * 2 ^ j : ℕ) : ℤ) - m| < 1 := by
      have hpow : (0 : ℤ) < 2 ^ k := by positivity
      have hm : (m : ℤ) < 2 ^ 53 := by exact_mod_cast hs.lt
      rw [hstep, abs_mul, abs_of_pos hpow, Nat.cast_mul m, ← mul_assoc, Nat.cast_pow 2 k,
        Nat.cast_ofNat, mul_lt_mul_iff_of_pos_right hpow] at hunits
      omega
    have heq := Int.abs_lt_one_iff.mp hlt
    rw [Nat.pow_add, Nat.mul_comm (2 ^ k), ← Nat.mul_assoc]
    exact congrArg (· * 2 ^ k) (by omega)
  · -- the other one has a finer step, and lies further below than that
    have hm := hs.le.resolve_left (by omega)
    have hgap : 2 ^ 53 * (m' * 2 ^ k') ≤ (2 ^ 53 - 1) * (m * 2 ^ k) := by
      calc 2 ^ 53 * (m' * 2 ^ k')
          _ ≤ 2 ^ 53 * ((2 ^ 53 - 1) * 2 ^ k') :=
            Nat.mul_le_mul_left _ (Nat.mul_le_mul_right _ (Nat.le_sub_one_of_lt hs'.lt))
          _ = (2 ^ 53 - 1) * (2 ^ 52 * 2 ^ (k' + 1)) := by ring
          _ ≤ (2 ^ 53 - 1) * (m * 2 ^ k) :=
            Nat.mul_le_mul_left _ (Nat.mul_le_mul hm (Nat.pow_le_pow_right two_pos hk))
    have hbelow := neg_le_abs (((m' * 2 ^ k' : ℕ) : ℤ) - (m * 2 ^ k : ℕ))
    generalize m * 2 ^ k = u at *
    generalize m' * 2 ^ k' = u' at *
    omega

/-! ## Magnitudes nearest to numbers -/

/-- The value of the bits of a magnitude. -/
def valueOfBits (bits : ℕ) : ℚ := unitsOfBits bits / unitsInOne

/-- The bits of the magnitude nearest to a number that is not negative. -/
def bitsNearest (q : ℚ) : ℕ := nearestBits (q.num.toNat * unitsInOne) q.den

theorem nearestBits_congr {num' den' : ℕ} (hden : 0 < den) (hden' : 0 < den')
    (h : num * den' = num' * den) : nearestBits num den = nearestBits num' den' :=
  Nat.le_antisymm (nearestBits_mono hden hden' h.le) (nearestBits_mono hden' hden h.ge)

theorem valueOfBits_pos {bits : ℕ} (h : 0 < bits) : 0 < valueOfBits bits :=
  div_pos (Nat.cast_pos.mpr (unitsOfBits_pos h)) unitsInOne_cast_pos

section Numbers

variable {p q : ℚ} {bits : ℕ}

theorem cast_toNat_num (hq : 0 ≤ q) : (q.num.toNat : ℚ) = q.num := by
  exact_mod_cast Int.toNat_of_nonneg (Rat.num_nonneg.mpr hq)

theorem toNat_num_div_den (hq : 0 ≤ q) : (q.num.toNat : ℚ) / q.den = q := by
  rw [cast_toNat_num hq, Rat.num_div_den]

/-- Of a quotient of naturals in units, the nearest double is that of its numerator and
denominator. -/
theorem bitsNearest_div (num : ℕ) (hden : 0 < den) :
    bitsNearest (num / den) = nearestBits (num * unitsInOne) den := by
  have hq : (0 : ℚ) ≤ num / den := by positivity
  have hcross := toNat_num_div_den hq
  rw [bitsNearest]
  generalize (num / den : ℚ).num.toNat = a, hb : (num / den : ℚ).den = b at *
  have hb : 0 < b := hb ▸ Rat.den_pos _
  rw [div_eq_div_iff (Nat.cast_pos.mpr hb).ne' (Nat.cast_pos.mpr hden).ne'] at hcross
  have hnat : a * den = num * b := by exact_mod_cast hcross
  refine nearestBits_congr hb hden ?_
  rw [Nat.mul_right_comm, hnat, Nat.mul_right_comm]

@[simp] theorem bitsNearest_zero : bitsNearest 0 = 0 := by
  rw [bitsNearest, Rat.num_zero, Int.toNat_zero, Nat.zero_mul, nearestBits_zero]

/-- Rounding keeps the order of the values. -/
theorem bitsNearest_mono (hp : 0 ≤ p) (h : p ≤ q) : bitsNearest p ≤ bitsNearest q := by
  have hcross : p.num.toNat * q.den ≤ q.num.toNat * p.den := by
    have hle := (Rat.le_iff _ _).mp h
    rw [← Int.toNat_of_nonneg (Rat.num_nonneg.mpr hp),
      ← Int.toNat_of_nonneg (Rat.num_nonneg.mpr (hp.trans h))] at hle
    exact_mod_cast hle
  refine nearestBits_mono p.den_pos q.den_pos ?_
  rw [Nat.mul_right_comm, Nat.mul_right_comm _ unitsInOne]
  exact Nat.mul_le_mul_right _ hcross

/-- A double is the one nearest to its own value. -/
theorem bitsNearest_valueOfBits (bits : ℕ) : bitsNearest (valueOfBits bits) = bits := by
  rw [valueOfBits, bitsNearest_div _ unitsInOne_pos]
  refine Eq.trans ?_ (nearestBits_unitsOfBits bits)
  exact nearestBits_congr unitsInOne_pos one_pos (Nat.mul_one _)

/-- No magnitude that can be written is closer to a number than the nearest one. -/
theorem bitsNearest_closest (hq : 0 ≤ q) (bits : ℕ) :
    |valueOfBits (bitsNearest q) - q| ≤ |valueOfBits bits - q| := by
  have hscale (b : ℕ) : |valueOfBits b - q| =
      |(unitsOfBits b : ℚ) - (q.num.toNat * unitsInOne : ℕ) / q.den| / unitsInOne := by
    have hdiff : valueOfBits b - q =
        ((unitsOfBits b : ℚ) - (q.num.toNat * unitsInOne : ℕ) / q.den) / unitsInOne := by
      rw [sub_div, Nat.cast_mul, mul_div_right_comm, toNat_num_div_den hq,
        mul_div_cancel_right₀ _ unitsInOne_cast_pos.ne', valueOfBits]
    rw [hdiff, abs_div, abs_of_pos unitsInOne_cast_pos]
  rw [hscale, hscale]
  exact div_le_div_of_nonneg_right (nearestBits_closest _ q.den_pos bits) unitsInOne_cast_pos.le

/-- A number within one part in `2 ^ 54` of a magnitude that can be written is rounded to it. -/
theorem bitsNearest_eq_of_close (hq : 0 ≤ q)
    (h : 2 ^ 54 * |valueOfBits bits - q| < valueOfBits bits) : bitsNearest q = bits := by
  have hclosest := bitsNearest_closest hq bits
  have htriangle := abs_sub_le (valueOfBits (bitsNearest q)) q (valueOfBits bits)
  rw [abs_sub_comm q] at htriangle
  have hclose : 2 ^ 53 * |valueOfBits (bitsNearest q) - valueOfBits bits| < valueOfBits bits := by
    linarith
  refine eq_of_close ?_
  rwa [valueOfBits, valueOfBits, ← sub_div, abs_div, abs_of_pos unitsInOne_cast_pos,
    ← mul_div_assoc, div_lt_div_iff_of_pos_right unitsInOne_cast_pos] at hclose

end Numbers

end Binary

end ScorePortfolio

import ScorePortfolio.Number.Binary
import Mathlib.Algebra.Order.Ring.Nat
import Mathlib.Tactic.Ring
import Mathlib.Tactic.SplitIfs

/-!
# The nearest magnitude

Rounding keeps order, and the magnitude nearest to one that can be written is itself.  So the bits
of magnitudes are ordered as their units are, and a quotient rounds no higher than a magnitude that
it does not exceed.
-/

namespace ScorePortfolio

variable {num den num' den' : ℕ}

/-! ## Rounding to a natural -/

/-- The rounded quotient is the integral one or the next, whichever leaves no more than half of the
divisor. -/
theorem divHalfEven_cases (num den : ℕ) :
    divHalfEven num den = num / den ∧ 2 * (num % den) ≤ den ∨
      divHalfEven num den = num / den + 1 ∧ den ≤ 2 * (num % den) := by
  simp only [divHalfEven]
  split
  · omega
  split <;> omega

theorem le_divHalfEven (num den : ℕ) : num / den ≤ divHalfEven num den := by
  have := divHalfEven_cases num den
  omega

theorem divHalfEven_le (num den : ℕ) : divHalfEven num den ≤ num / den + 1 := by
  have := divHalfEven_cases num den
  omega

/-- A larger quotient is not rounded to a smaller natural. -/
theorem divHalfEven_mono (hden : 0 < den) (hden' : 0 < den') (h : num * den' ≤ num' * den) :
    divHalfEven num den ≤ divHalfEven num' den' := by
  have hfloor : num / den ≤ num' / den' := by
    rw [Nat.le_div_iff_mul_le hden']
    refine Nat.le_of_mul_le_mul_right ?_ hden
    calc num / den * den' * den
        _ = num / den * den * den' := Nat.mul_right_comm ..
        _ ≤ num * den' := Nat.mul_le_mul_right _ (Nat.div_mul_le_self ..)
        _ ≤ num' * den := h
  rcases hfloor.lt_or_eq with hlt | heq
  · exact (divHalfEven_le num den).trans (hlt.trans_le (le_divHalfEven num' den'))
  · -- with equal integer parts the remainders decide
    have hrest : num % den * den' ≤ num' % den' * den := by
      have hnum := Nat.div_add_mod num den
      have hnum' := Nat.div_add_mod num' den'
      rw [← hnum, ← hnum', ← heq, Nat.add_mul, Nat.add_mul] at h
      have hcomm : den * (num / den) * den' = den' * (num / den) * den := by ring
      omega
    have hdouble : 2 * (num % den) * den' ≤ 2 * (num' % den') * den := by
      rw [Nat.mul_assoc, Nat.mul_assoc]
      exact Nat.mul_le_mul_left 2 hrest
    have hpast (hr : den < 2 * (num % den)) : den' < 2 * (num' % den') := by
      refine Nat.lt_of_mul_lt_mul_right (a := den) (lt_of_lt_of_le ?_ hdouble)
      rw [Nat.mul_comm den']
      exact Nat.mul_lt_mul_of_pos_right hr hden'
    have hhalf (hr : den ≤ 2 * (num % den)) : den' ≤ 2 * (num' % den') := by
      refine Nat.le_of_mul_le_mul_right (le_trans ?_ hdouble) hden
      rw [Nat.mul_comm den']
      exact Nat.mul_le_mul_right den' hr
    simp only [divHalfEven, heq]
    split_ifs <;> omega

theorem divHalfEven_congr (hden : 0 < den) (hden' : 0 < den') (h : num * den' = num' * den) :
    divHalfEven num den = divHalfEven num' den' :=
  Nat.le_antisymm (divHalfEven_mono hden hden' h.le) (divHalfEven_mono hden' hden h.ge)

@[simp] theorem divHalfEven_one (n : ℕ) : divHalfEven n 1 = n := by
  simp [divHalfEven, Nat.mod_one]

namespace Binary

/-! ## The significand of a quotient -/

/-- A rounded significand can be the next power of two. -/
theorem divHalfEven_le_of_lt {n : ℕ} (hden : 0 < den) (h : num < den * 2 ^ (n + 53)) :
    divHalfEven num (den * 2 ^ n) ≤ 2 ^ 53 := by
  have hlt : num / (den * 2 ^ n) < 2 ^ 53 := by
    rw [Nat.div_lt_iff_lt_mul (Nat.mul_pos hden (Nat.two_pow_pos n)), Nat.mul_left_comm,
      ← Nat.pow_add, Nat.add_comm]
    exact h
  exact (divHalfEven_le ..).trans hlt

/-- A quotient that fills the significand still does after rounding. -/
theorem le_divHalfEven_of_le {n : ℕ} (hden : 0 < den) (h : den * 2 ^ (n + 52) ≤ num) :
    2 ^ 52 ≤ divHalfEven num (den * 2 ^ n) := by
  refine le_trans ?_ (le_divHalfEven ..)
  rw [Nat.le_div_iff_mul_le (Nat.mul_pos hden (Nat.two_pow_pos n)), Nat.mul_left_comm,
    ← Nat.pow_add, Nat.add_comm]
  exact h

/-- The quotient is a significand times `2 ^ k`, up to rounding: it has 53 bits before the point
then, or fewer if `k` is zero. -/
structure HasShift (num den k : ℕ) : Prop where
  lt : num < den * 2 ^ (k + 53)
  le : k = 0 ∨ den * 2 ^ (k + 52) ≤ num

namespace HasShift

variable {k k' : ℕ}

/-- The shift that leaves a significand of 53 bits follows from the integral logarithm of the
quotient. -/
theorem log2_div (num : ℕ) (hden : 0 < den) : HasShift num den ((num / den).log2 - 52) := by
  have hlt := Nat.lt_log2_self (n := num / den)
  constructor
  · rw [Nat.mul_comm, ← Nat.div_lt_iff_lt_mul hden]
    exact hlt.trans_le (Nat.pow_le_pow_right (by decide) (by omega))
  · refine or_iff_not_imp_left.mpr fun hk ↦ ?_
    have hne : num / den ≠ 0 := by
      intro h
      simp [h] at hk
    rw [Nat.mul_comm, ← Nat.le_div_iff_mul_le hden]
    refine le_trans (Nat.pow_le_pow_right (by decide) ?_) (Nat.log2_self_le hne)
    omega

/-- The larger of two quotients is shifted at least as far. -/
theorem le_of_mul_le (h : HasShift num den k) (h' : HasShift num' den' k')
    (hle : num * den' ≤ num' * den) : k ≤ k' := by
  rcases h.le with rfl | hk
  · exact Nat.zero_le _
  have hden : 0 < den := Nat.pos_of_ne_zero fun hzero ↦ by simpa [hzero] using h.lt
  have hpow : 2 ^ (k + 52) < 2 ^ (k' + 53) := by
    refine Nat.lt_of_mul_lt_mul_left (a := den * den') ?_
    calc den * den' * 2 ^ (k + 52)
        _ = den * 2 ^ (k + 52) * den' := Nat.mul_right_comm ..
        _ ≤ num * den' := Nat.mul_le_mul_right _ hk
        _ ≤ num' * den := hle
        _ < den' * 2 ^ (k' + 53) * den := Nat.mul_lt_mul_of_pos_right h'.lt hden
        _ = den * den' * 2 ^ (k' + 53) := by ring
  have := (Nat.pow_lt_pow_iff_right (by decide)).mp hpow
  omega

theorem unique (h : HasShift num den k) (h' : HasShift num den k') : k = k' :=
  Nat.le_antisymm (h.le_of_mul_le h' le_rfl) (h'.le_of_mul_le h le_rfl)

theorem nearestBits_eq (hden : 0 < den) (h : HasShift num den k) :
    nearestBits num den = k * significands + divHalfEven num (den * 2 ^ k) := by
  obtain rfl := (log2_div num hden).unique h
  rw [nearestBits, Nat.shiftLeft_eq]

end HasShift

/-! ## Order -/

/-- A larger quotient is not rounded to a smaller magnitude. -/
theorem nearestBits_mono (hden : 0 < den) (hden' : 0 < den') (hle : num * den' ≤ num' * den) :
    nearestBits num den ≤ nearestBits num' den' := by
  have h := HasShift.log2_div num hden
  have h' := HasShift.log2_div num' hden'
  have hk := h.le_of_mul_le h' hle
  rw [h.nearestBits_eq hden, h'.nearestBits_eq hden']
  generalize (num / den).log2 - 52 = k at *
  generalize (num' / den').log2 - 52 = k' at *
  rcases hk.lt_or_eq with hlt | rfl
  · -- the first significand reaches the next power of two at most, and the second starts there
    have hupper := divHalfEven_le_of_lt hden h.lt
    have hlower := le_divHalfEven_of_le hden' (h'.le.resolve_left (by omega))
    have hstep : k * significands + significands ≤ k' * significands := by
      rw [← Nat.succ_mul]
      exact Nat.mul_le_mul_right _ hlt
    have hsize : significands = 2 ^ 52 := rfl
    omega
  · have hpow := Nat.two_pow_pos k
    refine Nat.add_le_add_left ?_ _
    refine divHalfEven_mono (Nat.mul_pos hden hpow) (Nat.mul_pos hden' hpow) ?_
    rw [← Nat.mul_assoc, ← Nat.mul_assoc]
    exact Nat.mul_le_mul_right _ hle

@[simp] theorem nearestBits_zero (den : ℕ) : nearestBits 0 den = 0 := by
  simp [nearestBits, divHalfEven]

/-! ## Magnitudes that can be written -/

/-- A significand `m` that counts multiples of `2 ^ k` units, as it is written. -/
structure IsSignificand (m k : ℕ) : Prop where
  lt : m < 2 ^ 53
  le : k = 0 ∨ 2 ^ 52 ≤ m

/-- Every magnitude is a significand with an exponent. -/
theorem exists_isSignificand (bits : ℕ) :
    ∃ m k, IsSignificand m k ∧ bits = k * significands + m := by
  rw [show significands = 2 ^ 52 from rfl]
  by_cases h : bits < 2 ^ 53
  · exact ⟨bits, 0, ⟨h, .inl rfl⟩, by omega⟩
  · refine ⟨2 ^ 52 + bits % 2 ^ 52, bits / 2 ^ 52 - 1, ⟨by omega, .inr (by omega)⟩, by omega⟩

namespace IsSignificand

variable {m k : ℕ}

/-- The units of a magnitude are its significand, shifted by its exponent. -/
theorem unitsOfBits_eq (h : IsSignificand m k) :
    unitsOfBits (k * significands + m) = m * 2 ^ k := by
  have hsize : significands = 2 ^ 52 := rfl
  have hlt := h.lt
  simp only [unitsOfBits, hsize, Nat.shiftLeft_eq]
  rcases Nat.lt_or_ge m (2 ^ 52) with hm | hm
  · obtain rfl := h.le.resolve_right (by omega)
    rw [if_pos (by omega)]
    omega
  · have hexp : (k * 2 ^ 52 + m) / 2 ^ 52 = k + 1 := by omega
    have hmod : 2 ^ 52 + (k * 2 ^ 52 + m) % 2 ^ 52 = m := by omega
    rw [hexp, hmod, if_neg (Nat.succ_ne_zero k), Nat.add_sub_cancel]

/-- The units of a double are shifted by its own exponent to give its significand. -/
theorem hasShift (h : IsSignificand m k) : HasShift (m * 2 ^ k) 1 k := by
  have hpow := Nat.two_pow_pos k
  refine ⟨?_, h.le.imp_right fun hm ↦ ?_⟩
  · rw [Nat.one_mul, Nat.add_comm, Nat.pow_add]
    exact Nat.mul_lt_mul_of_pos_right h.lt hpow
  · rw [Nat.one_mul, Nat.add_comm, Nat.pow_add]
    exact Nat.mul_le_mul_right _ hm

end IsSignificand

/-- The magnitude nearest to one that can be written is itself. -/
theorem nearestBits_unitsOfBits (bits : ℕ) : nearestBits (unitsOfBits bits) 1 = bits := by
  obtain ⟨m, k, h, rfl⟩ := exists_isSignificand bits
  have hexact : divHalfEven (m * 2 ^ k) (1 * 2 ^ k) = m := by
    calc divHalfEven (m * 2 ^ k) (1 * 2 ^ k)
        _ = divHalfEven m 1 := divHalfEven_congr (by simp) one_pos (by ring)
        _ = m := divHalfEven_one m
  rw [h.unitsOfBits_eq, h.hasShift.nearestBits_eq one_pos, hexact]

/-- The bits of magnitudes are ordered as their units are. -/
theorem unitsOfBits_le_iff {bits bits' : ℕ} :
    unitsOfBits bits ≤ unitsOfBits bits' ↔ bits ≤ bits' := by
  have himp {bits bits' : ℕ} (h : unitsOfBits bits ≤ unitsOfBits bits') : bits ≤ bits' := by
    have hle := nearestBits_mono one_pos one_pos (Nat.mul_le_mul_right 1 h)
    rwa [nearestBits_unitsOfBits, nearestBits_unitsOfBits] at hle
  refine ⟨himp, fun h ↦ ?_⟩
  rcases Nat.le_total (unitsOfBits bits) (unitsOfBits bits') with hle | hle
  · exact hle
  · obtain rfl := Nat.le_antisymm h (himp hle)
    exact le_rfl

/-- No positive number of units is rounded to zero. -/
theorem nearestBits_one_eq_zero {n : ℕ} : nearestBits n 1 = 0 ↔ n = 0 := by
  constructor
  · intro h
    by_contra hpos
    have hone : nearestBits (unitsOfBits 1) 1 ≤ nearestBits n 1 :=
      nearestBits_mono one_pos one_pos
        (Nat.mul_le_mul_right 1 (Nat.one_le_iff_ne_zero.mpr hpos))
    rw [nearestBits_unitsOfBits, h] at hone
    omega
  · rintro rfl
    exact nearestBits_zero 1

end Binary

end ScorePortfolio

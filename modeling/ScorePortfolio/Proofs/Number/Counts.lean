import ScorePortfolio.Proofs.Number.Missing

/-!
# Quotients of counts

A count is a double in the order of the counts, and infinite if it is beyond the largest one.  Of
two positive counts of which the second fits into a word, the quotient is a positive double that may
be infinite, and its reciprocal is finite; the reciprocal is at most one if the first count is no
smaller.
-/

namespace ScorePortfolio.Binary

open Float.Model
open Float.Model.UnpackedFloat hiding isFinite isNaN

variable {x y : Float} {bits : ℕ}

/-! ## Infinite operands -/

section Forms

variable {a a' : Bool} {u : UnpackedFloat}

/-- An infinity divided by a finite double is infinite. -/
theorem Denotes.infinity_div (h : Denotes a' u bits) (hlt : bits < infinityBits) :
    Denotes (a != a') (UnpackedFloat.div .binary64 (.infinity (signOf a)) u) infinityBits := by
  cases h with
  | infinity => exact absurd hlt (lt_irrefl _)
  | zero | finite =>
    rw [UnpackedFloat.div, signOf_div]
    exact .infinity

/-- A finite double divided by an infinity is a zero. -/
theorem Denotes.div_infinity (h : Denotes a u bits) (hlt : bits < infinityBits) :
    Denotes (a != a') (UnpackedFloat.div .binary64 u (.infinity (signOf a'))) 0 := by
  cases h with
  | infinity => exact absurd hlt (lt_irrefl _)
  | zero | finite =>
    rw [UnpackedFloat.div, signOf_div]
    exact .zero

end Forms

/-- The quotient of an infinity by a finite double, of which the sign follows from both signs. -/
theorem infinite_div (hx : ¬ x.isFinite = true) (hnan : ¬ x.isNaN = true) (hy : y.isFinite = true) :
    x / y = ofBits (isNegative x != isNegative y) infinityBits := by
  refine ofModel_pack (u := UnpackedFloat.div .binary64 _ _) ?_
  rw [unpack_of_infinite hx hnan]
  exact (denotes_of_isFinite hy).infinity_div (isFinite_iff.mp hy)

/-- The quotient of a finite double by an infinity, a zero of which the sign follows from both
signs. -/
theorem div_infinite (hx : x.isFinite = true) (hy : ¬ y.isFinite = true) (hnan : ¬ y.isNaN = true) :
    x / y = ofBits (isNegative x != isNegative y) 0 := by
  refine ofModel_pack (u := UnpackedFloat.div .binary64 _ _) ?_
  rw [unpack_of_infinite hy hnan]
  exact (denotes_of_isFinite hx).div_infinity (isFinite_iff.mp hx)

/-! ## Quotients of bits -/

section Quotients

variable {bits' : ℕ}

/-- The quotient of two positive finite doubles is the double nearest to the quotient of their
values. -/
theorem ofBits_div (h : bits < infinityBits) (h' : bits' < infinityBits) (hpos : 0 < bits') :
    ofBits false bits / ofBits false bits' =
      ofBits false (nearestBits (unitsOfBits bits * unitsInOne) (unitsOfBits bits')) := by
  have hmagnitude : 0 < magnitudeBits (ofBits false bits') := by
    rwa [magnitudeBits_ofBits, Nat.min_eq_left h'.le]
  rw [div_eq ((isFinite_ofBits _ _).mpr h) ((isFinite_ofBits _ _).mpr h') hmagnitude,
    isNegative_ofBits, isNegative_ofBits, magnitude_ofBits _ h.le, magnitude_ofBits _ h'.le]
  rfl

theorem infinite_ofBits_div (h : ¬ bits < infinityBits) (h' : bits' < infinityBits) :
    ofBits false bits / ofBits false bits' = ofBits false infinityBits := by
  rw [infinite_div (mt (isFinite_ofBits _ _).mp h) (not_isNaN_ofBits _ _)
    ((isFinite_ofBits _ _).mpr h'), isNegative_ofBits, isNegative_ofBits]
  rfl

theorem ofBits_div_infinite (h : bits < infinityBits) (h' : ¬ bits' < infinityBits) :
    ofBits false bits / ofBits false bits' = ofBits false 0 := by
  rw [div_infinite ((isFinite_ofBits _ _).mpr h) (mt (isFinite_ofBits _ _).mp h')
    (not_isNaN_ofBits _ _), isNegative_ofBits, isNegative_ofBits]
  rfl

end Quotients

/-! ## Counts -/

/-- The bits of a count. -/
def countBits (n : ℕ) : ℕ := nearestBits (n * unitsInOne) 1

theorem ofInt_natCast (n : ℕ) : ofInt n = ofBits false (countBits n) := rfl

theorem countBits_mono {n m : ℕ} (h : n ≤ m) : countBits n ≤ countBits m :=
  nearestBits_mono one_pos one_pos (Nat.mul_le_mul_right 1 (Nat.mul_le_mul_right _ h))

/-- A positive count is at least one, as a double too. -/
theorem oneBits_le_countBits {n : ℕ} (h : 0 < n) : oneBits ≤ countBits n := by
  have hone : countBits 1 = oneBits := by rw [countBits, Nat.one_mul, nearestBits_unitsInOne]
  rw [← hone]
  exact countBits_mono h

/-- The bits of the first count beyond the words. -/
def wordBits : ℕ := countBits (1 <<< 64)

-- here and below: a shift is evaluated place by place, and one unit is 1074 places down
set_option maxRecDepth 2500 in
theorem wordBits_lt : wordBits < infinityBits := by decide

/-! ## Quotients of counts -/

/-- The bits of the quotient of one and the first count beyond the words. -/
def leastBits : ℕ := nearestBits (unitsInOne * unitsInOne) (unitsOfBits wordBits)

set_option maxRecDepth 2500 in
theorem leastBits_pos : 0 < leastBits := by decide

set_option maxRecDepth 2500 in
theorem leastBits_le : leastBits ≤ infinityBits := by decide

set_option maxRecDepth 2500 in
theorem nearestBits_leastBits :
    nearestBits (unitsInOne * unitsInOne) (unitsOfBits leastBits) < infinityBits := by decide

theorem unitsInOne_le (h : oneBits ≤ bits) : unitsInOne ≤ unitsOfBits bits := by
  rw [← unitsOfBits_oneBits]
  exact unitsOfBits_le_iff.mpr h

/-- The quotient of positive counts, the second a word, is no smaller than that of one and the first
count beyond the words, and no smaller than one if the first count is no smaller. -/
theorem exists_quotient {n m : ℕ} (hn : 0 < n) (hm : 0 < m) (hword : m < 1 <<< 64) :
    ∃ bits, (ofInt n / ofInt m : Float) = ofBits false bits ∧ leastBits ≤ bits ∧
      (m ≤ n → oneBits ≤ bits) := by
  have hbits : countBits m ≤ wordBits := countBits_mono hword.le
  have hlt : countBits m < infinityBits := hbits.trans_lt wordBits_lt
  have hpos : 0 < countBits m := lt_of_lt_of_le (by decide) (oneBits_le_countBits hm)
  have hunits := unitsInOne_le (oneBits_le_countBits hn)
  rw [ofInt_natCast, ofInt_natCast]
  by_cases hrange : countBits n < infinityBits
  · refine ⟨_, ofBits_div hrange hlt hpos, nearestBits_mono ?_ (unitsOfBits_pos hpos) ?_,
      fun hmn ↦ ?_⟩
    · exact unitsOfBits_pos (lt_of_lt_of_le hpos hbits)
    · exact Nat.mul_le_mul (Nat.mul_le_mul_right _ hunits) (unitsOfBits_le_iff.mpr hbits)
    · rw [← nearestBits_unitsInOne]
      refine nearestBits_mono one_pos (unitsOfBits_pos hpos) ?_
      rw [Nat.mul_one, Nat.mul_comm]
      exact Nat.mul_le_mul_right _ (unitsOfBits_le_iff.mpr (countBits_mono hmn))
  · exact ⟨infinityBits, infinite_ofBits_div hrange hlt, leastBits_le, fun _ ↦ oneBits_lt.le⟩

/-- The reciprocal of a double that is not too little is finite and not negative, and at most one if
the double is at least one. -/
theorem exists_reciprocal (h : leastBits ≤ bits) :
    ∃ bits', (Quantity.one / ofBits false bits : Float) = ofBits false bits' ∧
      bits' < infinityBits ∧ (oneBits ≤ bits → bits' ≤ oneBits) := by
  rw [one_eq]
  by_cases hrange : bits < infinityBits
  · have hpos : 0 < bits := leastBits_pos.trans_le h
    refine ⟨_, ofBits_div oneBits_lt hrange hpos, ?_, fun hone ↦ ?_⟩
    · rw [unitsOfBits_oneBits]
      exact (nearestBits_mono (unitsOfBits_pos hpos) (unitsOfBits_pos leastBits_pos)
        (Nat.mul_le_mul_left _ (unitsOfBits_le_iff.mpr h))).trans_lt nearestBits_leastBits
    · rw [unitsOfBits_oneBits, ← nearestBits_unitsInOne]
      refine nearestBits_mono (unitsOfBits_pos hpos) one_pos ?_
      rw [Nat.mul_one]
      exact Nat.mul_le_mul_left _ (unitsInOne_le hone)
  · exact ⟨0, ofBits_div_infinite oneBits_lt hrange, by decide, fun _ ↦ Nat.zero_le _⟩

end ScorePortfolio.Binary

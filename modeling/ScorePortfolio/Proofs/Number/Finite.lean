import ScorePortfolio.Proofs.Number.Arithmetic
import ScorePortfolio.Series.Transform

/-!
# Finite doubles

What keeps a computation on finite doubles within the numbers.  A product may leave the range of the
doubles, but is a number; the relative change of a finite quotient stays within the range; and the
share of a magnitude in one that is not smaller is finite, since it does not exceed one.
-/

namespace ScorePortfolio

namespace Binary

variable {x y : Float}

/-- A double stands for a number exactly if it is finite. -/
theorem nonFinite?_eq_none : nonFinite? x = none ↔ x.isFinite = true := by
  rw [nonFinite?]
  split
  · next h => exact iff_of_true rfl h
  · next h =>
    refine iff_of_false ?_ h
    split
    · exact Option.some_ne_none _
    split <;> exact Option.some_ne_none _

/-- Only the patterns beyond infinity are not a number. -/
theorem nonFinite?_eq_nan : nonFinite? x = some .nan ↔ infinityBits < magnitudeBits x := by
  rw [nonFinite?, ← isNaN_iff]
  split
  · next h =>
    refine iff_of_false nofun fun hnan ↦ ?_
    exact (isFinite_iff.mp h).not_gt (isNaN_iff.mp hnan)
  split
  · next h => exact iff_of_true rfl h
  · next h =>
    refine iff_of_false ?_ h
    split <;> exact nofun

theorem isFinite_ofBits (negative : Bool) (bits : ℕ) :
    (ofBits negative bits).isFinite = true ↔ bits < infinityBits := by
  rw [isFinite_iff, magnitudeBits_ofBits, min_lt_iff]
  exact or_iff_left (lt_irrefl _)

theorem magnitude_ofBits (negative : Bool) {bits : ℕ} (h : bits ≤ infinityBits) :
    magnitude (ofBits negative bits) = unitsOfBits bits := by
  rw [magnitude, magnitudeBits_ofBits, Nat.min_eq_left h]

/-! ## One -/

/-- The bits of one. -/
def oneBits : ℕ := 1023 * significands

theorem oneBits_lt : oneBits < infinityBits := by decide

theorem unitsOfBits_oneBits : unitsOfBits oneBits = unitsInOne := by decide

theorem nearestBits_unitsInOne : nearestBits unitsInOne 1 = oneBits := by
  rw [← unitsOfBits_oneBits, nearestBits_unitsOfBits]

theorem one_eq : (Quantity.one : Float) = ofBits false oneBits := by
  rw [← nearestBits_unitsInOne]
  exact congrArg (fun n ↦ ofBits false (nearestBits n 1)) (Nat.one_mul unitsInOne)

theorem units_one : units (Quantity.one : Float) = unitsInOne := by
  rw [units_eq, one_eq, isNegative_ofBits, magnitudeBits_ofBits, Nat.min_eq_left oneBits_lt.le,
    signedUnits_false, unitsOfBits_oneBits]

theorem ofInt_neg_one : (Quantity.ofInt (-1) : Float) = ofBits true oneBits := by
  rw [← nearestBits_unitsInOne]
  exact congrArg (fun n ↦ ofBits true (nearestBits n 1)) (Nat.one_mul unitsInOne)

theorem isFinite_ofInt_neg_one : (Quantity.ofInt (-1) : Float).isFinite = true := by
  rw [ofInt_neg_one, isFinite_ofBits]
  exact oneBits_lt

theorem units_ofInt_neg_one : units (Quantity.ofInt (-1) : Float) = -(unitsInOne : ℤ) := by
  rw [units_eq, ofInt_neg_one, isNegative_ofBits, magnitudeBits_ofBits,
    Nat.min_eq_left oneBits_lt.le, signedUnits_true, unitsOfBits_oneBits]

/-! ## Staying in range -/

/-- The largest double. -/
theorem magnitude_le (h : x.isFinite = true) : magnitude x ≤ unitsOfBits (infinityBits - 1) :=
  unitsOfBits_le_iff.mpr (Nat.le_sub_one_of_lt (isFinite_iff.mp h))

/-- One is so little beside the largest double that taking it from a finite double leaves the range
at no end. -/
theorem isFinite_sub_one (h : x.isFinite = true) : (x - Quantity.one).isFinite = true := by
  have hone : (Quantity.one : Float).isFinite = true := by
    rw [one_eq, isFinite_ofBits]
    exact oneBits_lt
  have hmax : nearestBits (unitsOfBits (infinityBits - 1) + unitsInOne) 1 < infinityBits := by
    decide +kernel
  rw [sub_eq h hone, isFinite_ofBits]
  refine lt_of_le_of_lt (nearestBits_mono one_pos one_pos (Nat.mul_le_mul_right 1 ?_)) hmax
  rw [units_one]
  have hle := magnitude_le h
  have habs : (units x).natAbs = magnitude x := natAbs_signedUnits _ _
  omega

/-- The share of a magnitude in one that is not smaller does not exceed one. -/
theorem isFinite_div (hx : x.isFinite = true) (hy : y.isFinite = true) (hpos : 0 < magnitudeBits y)
    (hle : magnitude x ≤ magnitude y) : (x / y).isFinite = true := by
  rw [div_eq hx hy hpos, isFinite_ofBits]
  refine lt_of_le_of_lt ?_ oneBits_lt
  rw [← nearestBits_unitsInOne]
  refine nearestBits_mono (unitsOfBits_pos hpos) one_pos ?_
  rw [Nat.mul_one, Nat.mul_comm]
  exact Nat.mul_le_mul_left _ hle

end Binary

namespace Quantity

variable {x y : Float}

/-- Infinities included, what is not beyond infinity is there. -/
theorem present?_of_le (h : Binary.magnitudeBits x ≤ Binary.infinityBits) :
    present? x = some x := by
  rw [present?, if_neg]
  rw [isMissing, beq_iff_eq]
  exact mt Binary.nonFinite?_eq_nan.mp h.not_gt

theorem present?_of_isFinite (h : x.isFinite = true) : present? x = some x :=
  present?_of_le (Binary.isFinite_iff.mp h).le

/-- A product of finite doubles is a number, though it may be infinite. -/
theorem present?_mul (hx : x.isFinite = true) (hy : y.isFinite = true) :
    present? (x * y) = some (x * y) := by
  refine present?_of_le ?_
  rw [Binary.mul_eq hx hy, Binary.magnitudeBits_ofBits]
  exact Nat.min_le_right _ _

theorem isFinite_change (h : (y / x).isFinite = true) : (change x y).isFinite = true :=
  Binary.isFinite_sub_one h

end Quantity

end ScorePortfolio

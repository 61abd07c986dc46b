import ScorePortfolio.Proofs.Number.Special

/-!
# Sums that a zero leaves as they are

Adding a zero of either sign to a double gives the double back, bit for bit, unless that is the
negative zero, which a positive zero added to it turns positive.  A sum is the negative zero only if
both its terms are: rounding never turns a sum into zero, and opposed terms cancel to the positive
zero.  So a running sum that starts at the positive zero is never the negative zero, and the zeros
among its terms could be left out.
-/

namespace ScorePortfolio.Binary

open Float.Model
open Float.Model.UnpackedFloat hiding isFinite isNaN

variable {x y : Float}

/-! ## Zeros as terms -/

/-- A zero times a finite double is a zero. -/
theorem magnitudeBits_mul (hx : magnitudeBits x = 0) (hy : y.isFinite = true) :
    magnitudeBits (x * y) = 0 := by
  rw [mul_eq (isFinite_of_magnitudeBits hx) hy, magnitudeBits_ofBits, magnitude, hx,
    unitsOfBits_zero, Nat.zero_mul, nearestBits_zero, Nat.zero_min]

/-- The zero with the sign bit set. -/
def IsNegativeZero (x : Float) : Prop := isNegative x = true ∧ magnitudeBits x = 0

theorem not_isNegativeZero_zero : ¬ IsNegativeZero (Quantity.zero : Float) := by
  rintro ⟨hneg, -⟩
  revert hneg
  decide

/-- A double is what it unpacks to, packed again. -/
theorem ofModel_pack_of_eq {u : UnpackedFloat} (h : u = x.toModel.unpack) :
    Float.ofModel (.pack u) = x := by
  rw [h]
  exact toNat_toBits_injective
    (congrArg BitVec.toNat (UnpackedFloat.pack_unpack_of_valid x.toModel.valid))

/-- A zero that is not the negative one is the positive one. -/
theorem eq_positive_of_unpack {s : Sign} (hx : ¬ IsNegativeZero x)
    (hu : x.toModel.unpack = .zero s) : s = .positive := by
  have hbits := magnitudeBits_of_unpack hu
  have hsign : isNegative x = false := Bool.eq_false_iff.mpr fun hneg ↦ hx ⟨hneg, hbits⟩
  rw [unpack_of_magnitudeBits hbits, hsign] at hu
  exact (UnpackedFloat.zero.inj hu).symm

/-- Adding a zero changes the negative zero only. -/
theorem add_of_magnitudeBits (hx : ¬ IsNegativeZero x) (hy : magnitudeBits y = 0) : x + y = x := by
  have hform : UnpackedFloat.add .binary64 x.toModel.unpack (.zero (signOf (isNegative y))) =
      x.toModel.unpack := by
    cases hu : x.toModel.unpack with
    | notANumber | infinity | finite => rfl
    | zero s =>
      obtain rfl := eq_positive_of_unpack hx hu
      cases isNegative y <;> rfl
  rw [← unpack_of_magnitudeBits hy] at hform
  exact ofModel_pack_of_eq hform

/-- The positive zero does not change what it is added to, except for the negative zero. -/
theorem positiveZero_add (hx : ¬ IsNegativeZero x) : Quantity.zero + x = x := by
  have hform : UnpackedFloat.add .binary64 (.zero .positive) x.toModel.unpack =
      x.toModel.unpack := by
    cases hu : x.toModel.unpack with
    | notANumber | infinity | finite => rfl
    | zero s =>
      obtain rfl := eq_positive_of_unpack hx hu
      rfl
  rw [← unpack_zero] at hform
  exact ofModel_pack_of_eq hform

/-! ## Sums that are zero -/

/-- An infinity or what is not a number stays in a sum. -/
theorem isFinite_of_add (h : (x + y).isFinite = true) : x.isFinite = true ∧ y.isFinite = true := by
  have hnan : ¬ (Float.ofModel (.pack .notANumber)).isFinite = true := by decide
  have hinfinity (s : Sign) : ¬ (Float.ofModel (.pack (.infinity s))).isFinite = true := by
    cases s <;> decide
  have hsum : (Float.ofModel (.pack (UnpackedFloat.add .binary64 x.toModel.unpack
      y.toModel.unpack))).isFinite = true := h
  show x.toModel.unpack.isFinite = true ∧ y.toModel.unpack.isFinite = true
  generalize x.toModel.unpack = u, y.toModel.unpack = v at hsum
  cases u <;> cases v <;> grind [UnpackedFloat.add, UnpackedFloat.isFinite]

theorem units_nonpos (h : isNegative x = true) : units x ≤ 0 := by
  rw [units, if_pos h]
  omega

/-- A sum is the negative zero only if its terms are. -/
theorem isNegativeZero_of_add (h : IsNegativeZero (x + y)) : IsNegativeZero x := by
  obtain ⟨hneg, hbits⟩ := h
  obtain ⟨hx, hy⟩ := isFinite_of_add (isFinite_of_magnitudeBits hbits)
  rw [add_eq hx hy, magnitudeBits_ofBits, Nat.min_eq_zero_iff] at hbits
  have hsum : (units x + units y).natAbs = 0 :=
    nearestBits_one_eq_zero.mp (hbits.resolve_right (by decide))
  have hopposed : units x = -units y := by omega
  rw [add_eq hx hy, isNegative_ofBits, signOfSub, if_pos hopposed, Bool.not_not,
    Bool.and_eq_true] at hneg
  have hnonpos := units_nonpos hneg.1
  have hnonpos' := units_nonpos hneg.2
  have hzero : units x = 0 := by omega
  exact ⟨hneg.1, signedUnits_eq_zero.mp hzero⟩

end ScorePortfolio.Binary

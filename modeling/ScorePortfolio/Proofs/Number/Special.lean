import ScorePortfolio.Proofs.Number.Finite

/-!
# Zeros, infinities and what is not a number

The doubles without a significand unpack to forms of their own, so a comparison with zero can be
read off them: the zeros are equal to it, negative infinity is below it, positive infinity above,
and what is not a number is none of these.  Setting negative values to zero keeps two of the three
kinds that are no finite numbers.
-/

namespace ScorePortfolio

open Float.Model
open Float.Model.UnpackedFloat hiding isFinite isNaN

namespace Binary

variable {x : Float}

/-! ## Forms -/

theorem unpack_of_isNaN (h : x.isNaN = true) : x.toModel.unpack = .notANumber :=
  UnpackedFloat.isNaN_iff.mp h

/-- What is neither finite nor not a number is an infinity of its sign. -/
theorem unpack_of_infinite (hfin : ¬ x.isFinite = true) (hnan : ¬ x.isNaN = true) :
    x.toModel.unpack = .infinity (signOf (isNegative x)) := by
  have hform := denotes (not_lt.mp (mt isNaN_iff.mpr hnan))
  have hfin : ¬ x.toModel.unpack.isFinite = true := hfin
  generalize x.toModel.unpack = u, magnitudeBits x = bits at hform hfin
  cases hform with
  | infinity => rfl
  | zero | finite => exact absurd rfl hfin

theorem unpack_zero : (Quantity.zero : Float).toModel.unpack = .zero .positive := by
  rfl

/-- The magnitude zero stands for a zero. -/
theorem Denotes.eq_zero {a : Bool} {u : UnpackedFloat} (h : Denotes a u 0) :
    u = .zero (signOf a) := by
  generalize hbits : 0 = bits at h
  cases h with
  | zero => rfl
  | finite hs hm => omega
  | infinity => cases hbits

/-- Without magnitude, a double is the zero of its sign. -/
theorem unpack_of_magnitudeBits (h : magnitudeBits x = 0) :
    x.toModel.unpack = .zero (signOf (isNegative x)) := by
  have hform : Denotes (isNegative x) x.toModel.unpack (magnitudeBits x) := denotes (by omega)
  rw [h] at hform
  exact hform.eq_zero

theorem isFinite_of_magnitudeBits (h : magnitudeBits x = 0) : x.isFinite = true :=
  isFinite_iff.mpr (h.trans_lt (by decide))

/-- A double that unpacks to a zero has no magnitude. -/
theorem magnitudeBits_of_unpack {s : Sign} (h : x.toModel.unpack = .zero s) :
    magnitudeBits x = 0 := by
  have hfin : x.toModel.unpack.isFinite = true := by
    rw [h]
    rfl
  have hform := denotes_of_isFinite hfin
  rw [h] at hform
  generalize magnitudeBits x = bits at hform
  cases hform with
  | zero => rfl

/-! ## Comparing with zero -/

/-- A double is equal to zero if it has no magnitude, whatever its sign. -/
theorem eq_zero_iff : Quantity.eq x Quantity.zero = true ↔ magnitudeBits x = 0 := by
  have hcompare : Quantity.eq x Quantity.zero = true ↔
      (x.toModel.unpack.compare (Quantity.zero : Float).toModel.unpack == some .eq) = true :=
    Iff.rfl
  rw [hcompare, beq_iff_eq, unpack_zero]
  constructor
  · intro h
    suffices hform : ∃ s, x.toModel.unpack = .zero s from
      magnitudeBits_of_unpack hform.choose_spec
    generalize x.toModel.unpack = u at h
    cases u with
    | notANumber => cases h
    | zero s => exact ⟨s, rfl⟩
    | infinity s | finite s => cases s <;> cases h
  · intro h
    rw [unpack_of_magnitudeBits h]
    rfl

/-- The zeros of either sign are equal to zero, and nothing else is. -/
theorem eq_zero_iff_zeros : Quantity.eq x Quantity.zero = true ↔ x = 0.0 ∨ x = -0.0 := by
  have hpositive : (0.0 : Float).toBits.toNat = 0 := by decide
  have hnegative : (-0.0 : Float).toBits.toNat = signBit := by decide
  have hlt : x.toBits.toNat < 2 * signBit := x.toBits.toNat_lt
  rw [eq_zero_iff, ← toNat_toBits_injective.eq_iff, ← toNat_toBits_injective.eq_iff, hpositive,
    hnegative, magnitudeBits]
  rw [signBit] at hlt ⊢
  omega

theorem magnitudeBits_pos (h : Quantity.eq x Quantity.zero = false) : 0 < magnitudeBits x :=
  Nat.pos_of_ne_zero fun hbits ↦ Bool.eq_false_iff.mp h (eq_zero_iff.mpr hbits)

theorem lt_iff_compare {x y : Float} : Quantity.lt x y = true ↔
    x.toModel.unpack.compare y.toModel.unpack = some .lt := by
  have hlt : Quantity.lt x y = true ↔ x < y := decide_eq_true_iff
  have hcompare : x < y ↔ (x.toModel.unpack.compare y.toModel.unpack == some .lt) = true :=
    decide_eq_true_iff
  rw [hlt, hcompare, beq_iff_eq]

/-- Nothing is both below zero and above it. -/
theorem not_zero_lt_of_lt_zero (h : Quantity.lt x Quantity.zero = true) :
    ¬ Quantity.lt Quantity.zero x = true := by
  rw [lt_iff_compare, unpack_zero] at *
  generalize x.toModel.unpack = u at *
  cases u with
  | notANumber => cases h
  | zero s => cases h
  | infinity s | finite s =>
    cases s with
    | positive => cases h
    | negative => nofun

/-- Of the values that are no finite numbers, negative infinity alone is below zero. -/
theorem lt_zero_of_nonFinite {kind : NonFinite} (h : nonFinite? x = some kind) :
    Quantity.lt x Quantity.zero = true ↔ kind = .negInfinity := by
  rw [nonFinite?] at h
  split at h
  · cases h
  next hfin =>
  rw [lt_iff_compare, unpack_zero]
  split at h
  · next hnan =>
    obtain rfl := Option.some.inj h
    rw [unpack_of_isNaN hnan]
    exact iff_of_false (by decide) (by decide)
  next hnan =>
  rw [unpack_of_infinite hfin hnan]
  split at h
  · next hneg =>
    obtain rfl := Option.some.inj h
    rw [hneg]
    exact iff_of_true rfl rfl
  · next hneg =>
    obtain rfl := Option.some.inj h
    rw [Bool.eq_false_iff.mpr hneg]
    exact iff_of_false (by decide) (by decide)

/-! ## Negative values set to zero -/

theorem nonFinite?_zero : nonFinite? (Quantity.zero : Float) = none := by decide

/-- Setting negative values to zero keeps what is not a number and positive infinity, and makes all
other values finite. -/
theorem nonFinite?_clamp (x : Float) : nonFinite? (Quantity.clamp x) =
    if nonFinite? x = some .negInfinity then none else nonFinite? x := by
  rw [Quantity.clamp]
  cases h : nonFinite? x with
  | none =>
    split
    · simpa using nonFinite?_zero
    · simpa using h
  | some kind =>
    simp only [lt_zero_of_nonFinite h, Option.some.injEq]
    split
    · exact nonFinite?_zero
    · exact h

end Binary

end ScorePortfolio

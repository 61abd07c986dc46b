import ScorePortfolio.Number.Quantity
import ScorePortfolio.Proofs.Number.Nearest
import Mathlib

/-!
# The bits of a double

The operations on doubles are defined on a form with a sign, a significand and an exponent, to which
the bits are unpacked.  `Denotes` says which form belongs to which sign and magnitude; packing goes
back to the bits, with infinity in place of what lies beyond the largest double.
-/

namespace ScorePortfolio.Binary

open Float.Model
open Float.Model.UnpackedFloat hiding isFinite isNaN

/-- The sign of a double, given whether it is negative. -/
def signOf (negative : Bool) : Sign := if negative then .negative else .positive

/-- The form of a sign and the bits of a magnitude that is a number or infinite. -/
inductive Denotes (negative : Bool) : UnpackedFloat → ℕ → Prop
  | zero : Denotes negative (.zero (signOf negative)) 0
  | finite {m k : ℕ} (h : IsSignificand m k) (hm : 0 < m) :
    Denotes negative (.finite (signOf negative) m (k - 1074) hm) (k * significands + m)
  | infinity : Denotes negative (.infinity (signOf negative)) infinityBits

theorem Denotes.of_isSignificand {negative : Bool} {m k bits : ℕ} {e : ℤ} (h : IsSignificand m k)
    (hm : 0 < m) (he : e = k - 1074) (hbits : bits = k * significands + m) :
    Denotes negative (.finite (signOf negative) m e hm) bits := by
  subst he hbits
  exact .finite h hm

/-! ## Packing -/

/-- Sign, exponent and significand stand side by side in the pattern. -/
theorem toNat_packComponents (negative : Bool) (exponent : BitVec 11) (mantissa : BitVec 52) :
    (packComponents .binary64 (signOf negative) exponent mantissa).toNat =
      (if negative then signBit else 0) + exponent.toNat * significands + mantissa.toNat := by
  have hsign : (signOf negative).toBitVec.toNat = if negative then 1 else 0 := by
    cases negative <;> rfl
  show ((signOf negative).toBitVec ++ exponent ++ mantissa).toNat = _
  rw [BitVec.toNat_append, ← Nat.shiftLeft_add_eq_or_of_lt mantissa.isLt, BitVec.toNat_append,
    ← Nat.shiftLeft_add_eq_or_of_lt exponent.isLt, hsign, Nat.shiftLeft_eq, Nat.shiftLeft_eq]
  cases negative <;> simp [significands, signBit]; omega

theorem toNat_packedInfinity (negative : Bool) :
    (packedInfinity .binary64 (signOf negative)).toNat =
      (if negative then signBit else 0) + infinityBits :=
  toNat_packComponents negative (-1) 0

/-- A number packs to its bits, or to infinity if it is too large to be written. -/
theorem toNat_pack {negative : Bool} {u : UnpackedFloat} {bits : ℕ} (h : Denotes negative u bits) :
    (UnpackedFloat.pack .binary64 u).toNat =
      (if negative then signBit else 0) + min bits infinityBits := by
  have hsize : significands = 2 ^ 52 := rfl
  have hlast : infinityBits = 2047 * 2 ^ 52 := rfl
  cases h with
  | zero => exact toNat_packComponents negative 0 0
  | infinity => exact (toNat_packedInfinity negative).trans (by rw [Nat.min_self])
  | @finite m k h hm =>
    have hlt := h.lt
    have hexp : ((k : ℤ) - 1074 + Format.binary64.exponentBias + (52 : ℕ)).toNat = k + 1 := by
      show ((k : ℤ) - 1074 + 1023 + 52).toNat = k + 1
      omega
    have hlog : m.log2 + 1 = Format.binary64.mantissaBits ↔ 2 ^ 52 ≤ m := by
      show m.log2 + 1 = 53 ↔ 2 ^ 52 ≤ m
      rw [← Nat.le_log2 hm.ne']
      have := (Nat.log2_lt hm.ne').mpr hlt
      omega
    simp only [UnpackedFloat.pack, hexp]
    by_cases hlarge : 2048 ≤ k + 1 + 1
    · have hnormal := h.le.resolve_left (by omega)
      rw [if_pos hlarge, toNat_packedInfinity, hsize, hlast]
      omega
    rw [if_neg hlarge]
    by_cases hnormal : 2 ^ 52 ≤ m
    · have hmod : m % 2 ^ 52 = m - 2 ^ 52 := by omega
      rw [if_pos (hlog.mpr hnormal), toNat_packComponents, BitVec.toNat_ofNat, BitVec.toNat_ofNat,
        hmod, Nat.mod_eq_of_lt (show k + 1 < 2 ^ 11 by omega), hsize, hlast]
      omega
    · have hk : k = 0 := h.le.resolve_right hnormal
      have hmod : m % 2 ^ 52 = m := Nat.mod_eq_of_lt (by omega)
      rw [if_neg (mt hlog.mp hnormal), toNat_packComponents, BitVec.toNat_ofNat,
        BitVec.toNat_ofNat, hmod, Nat.zero_mod, hk, hsize, hlast]
      omega

/-! ## Unpacking -/

section Fields

variable (b : BitVec 64)

theorem toNat_unpackMantissa :
    (unpackMantissa b : BitVec Format.binary64.mantissaBitsWithoutImplicit).toNat =
      b.toNat % signBit % significands := by
  have hfield : (unpackMantissa b : BitVec Format.binary64.mantissaBitsWithoutImplicit).toNat =
      b.toNat % 2 ^ 52 := by
    simp [unpackMantissa]
  rw [hfield, show signBit = 2 ^ 63 from rfl, show significands = 2 ^ 52 from rfl]
  omega

theorem toNat_unpackExponent :
    (unpackExponent b : BitVec Format.binary64.exponentBits).toNat =
      b.toNat % signBit / significands := by
  have hfield : (unpackExponent b : BitVec Format.binary64.exponentBits).toNat =
      b.toNat / 2 ^ 52 % 2 ^ 11 := by
    simp [unpackExponent, Nat.shiftRight_eq_div_pow]
  rw [hfield, show signBit = 2 ^ 63 from rfl, show significands = 2 ^ 52 from rfl]
  omega

/-- The sign is the highest bit of the pattern. -/
theorem ofBitVec_unpackSign : Sign.ofBitVec (@unpackSign .binary64 b) =
    signOf (signBit ≤ b.toNat) := by
  have hfield : (@unpackSign .binary64 b).toNat = b.toNat / 2 ^ 63 := by
    simp only [unpackSign, BitVec.toNat_cast, BitVec.extractLsb_toNat, Nat.shiftRight_eq_div_pow]
    have := b.isLt
    omega
  have hzero : @unpackSign .binary64 b = 0#1 ↔ ¬signBit ≤ b.toNat := by
    rw [← BitVec.toNat_inj, hfield, show signBit = 2 ^ 63 from rfl, BitVec.toNat_ofNat]
    omega
  by_cases hsign : signBit ≤ b.toNat
  · simp [Sign.ofBitVec, signOf, hzero, hsign]
  · simp [Sign.ofBitVec, signOf, hzero, hsign]

end Fields

theorem toNat_implicit (mantissa : BitVec 52) :
    (1#1 ++ mantissa).toNat = significands + mantissa.toNat := by
  rw [BitVec.toNat_append, ← Nat.shiftLeft_add_eq_or_of_lt mantissa.isLt]
  rfl

/-- The form of the fields of a double. -/
def ofFields (negative : Bool) (exponent mantissa : ℕ) : UnpackedFloat :=
  if exponent = 2047 then
    if mantissa = 0 then .infinity (signOf negative) else .notANumber
  else if exponent = 0 then
    if hm : mantissa = 0 then .zero (signOf negative)
    else .finite (signOf negative) mantissa (-1074) (Nat.pos_of_ne_zero hm)
  else .finite (signOf negative) (significands + mantissa) (exponent - 1075)
    (Nat.add_pos_left (by decide) mantissa)

/-- A pattern is unpacked to the double of its three fields. -/
theorem unpack_eq_ofFields (b : BitVec 64) : UnpackedFloat.unpack .binary64 b =
    ofFields (signBit ≤ b.toNat) (b.toNat % signBit / significands)
      (b.toNat % signBit % significands) := by
  have hones : (-BitVec.ofNat Format.binary64.exponentBits 1).toNat = 2047 := rfl
  have hzeros (w : ℕ) : (0#w).toNat = 0 := BitVec.toNat_zero ..
  simp only [UnpackedFloat.unpack, ofFields, ofBitVec_unpackSign, ← BitVec.toNat_inj,
    toNat_implicit, toNat_unpackExponent, toNat_unpackMantissa, hones, hzeros]
  split
  · rfl
  split
  · next hzero => rw [hzero]; rfl
  · rfl

/-- The bits of a number or an infinity unpack to its form. -/
theorem denotes_unpack {b : BitVec 64} (h : b.toNat % signBit ≤ infinityBits) :
    Denotes (signBit ≤ b.toNat) (UnpackedFloat.unpack .binary64 b) (b.toNat % signBit) := by
  rw [unpack_eq_ofFields]
  generalize decide (signBit ≤ b.toNat) = negative
  generalize b.toNat % signBit = bits at *
  have hbits := Nat.div_add_mod' bits significands
  have hmod : bits % significands < 2 ^ 52 := Nat.mod_lt _ (by decide)
  generalize bits / significands = exponent at *
  generalize bits % significands = mantissa at *
  obtain rfl := hbits
  have hsize : significands = 2 ^ 52 := rfl
  have hlast : infinityBits = 2047 * 2 ^ 52 := rfl
  rw [ofFields]
  split
  · next hspecial =>
    subst hspecial
    obtain rfl : mantissa = 0 := by omega
    exact .infinity
  split
  · next hsmall =>
    subst hsmall
    split
    · next hzero =>
      subst hzero
      exact .zero
    · next hpos => exact .of_isSignificand ⟨by omega, .inl rfl⟩ _ rfl rfl
  · next hnormal =>
    obtain ⟨k, rfl⟩ := Nat.exists_eq_succ_of_ne_zero hnormal
    refine .of_isSignificand (k := k) ⟨by omega, .inr (by omega)⟩ _ ?_ ?_
    · show ((k + 1 : ℕ) : ℤ) - 1075 = k - 1074
      omega
    · rw [Nat.succ_mul, Nat.add_assoc]

/-- The largest exponent alone stands for no finite number. -/
theorem isFinite_ofFields (negative : Bool) (exponent mantissa : ℕ) :
    (ofFields negative exponent mantissa).isFinite = true ↔ exponent ≠ 2047 := by
  rw [ofFields]
  split
  · next h => split <;> simp [UnpackedFloat.isFinite, h]
  split
  · next h _ => split <;> simp [UnpackedFloat.isFinite, h]
  · next h _ => simp [UnpackedFloat.isFinite, h]

/-- With the largest exponent, any significand but zero is not a number. -/
theorem isNaN_ofFields (negative : Bool) (exponent mantissa : ℕ) :
    (ofFields negative exponent mantissa).isNaN = true ↔ exponent = 2047 ∧ mantissa ≠ 0 := by
  rw [ofFields]
  split
  · next h => split <;> simp_all [UnpackedFloat.isNaN]
  split
  · next h _ => split <;> simp [UnpackedFloat.isNaN, h]
  · next h _ => simp [UnpackedFloat.isNaN, h]

/-! ## Doubles -/

theorem toNat_toBits_injective : Function.Injective fun x : Float ↦ x.toBits.toNat :=
  fun _ _ h ↦ Float.toBits_inj.mp (UInt64.toNat_inj.mp h)

variable {x : Float}

theorem denotes (h : magnitudeBits x ≤ infinityBits) :
    Denotes (isNegative x) x.toModel.unpack (magnitudeBits x) :=
  denotes_unpack h

theorem magnitudeBits_lt (x : Float) : magnitudeBits x < signBit := Nat.mod_lt _ (by decide)

/-- A double is finite if its magnitude is below infinity. -/
theorem isFinite_iff : x.isFinite = true ↔ magnitudeBits x < infinityBits := by
  have hunpack : x.toModel.unpack = ofFields (isNegative x) (magnitudeBits x / significands)
      (magnitudeBits x % significands) := unpack_eq_ofFields _
  have hlt : magnitudeBits x < 2 ^ 63 := magnitudeBits_lt x
  show x.toModel.unpack.isFinite = true ↔ magnitudeBits x < 2047 * 2 ^ 52
  rw [hunpack, isFinite_ofFields, show significands = 2 ^ 52 from rfl]
  omega

/-- It is not a number if its magnitude is beyond infinity. -/
theorem isNaN_iff : x.isNaN = true ↔ infinityBits < magnitudeBits x := by
  have hunpack : x.toModel.unpack = ofFields (isNegative x) (magnitudeBits x / significands)
      (magnitudeBits x % significands) := unpack_eq_ofFields _
  have hlt : magnitudeBits x < 2 ^ 63 := magnitudeBits_lt x
  show x.toModel.unpack.isNaN = true ↔ 2047 * 2 ^ 52 < magnitudeBits x
  rw [hunpack, isNaN_ofFields, show significands = 2 ^ 52 from rfl]
  omega

/-- A double is what its form packs to. -/
theorem toNat_toBits_pack {negative : Bool} {u : UnpackedFloat} {bits : ℕ}
    (h : Denotes negative u bits) : (Float.ofModel (.pack u)).toBits.toNat =
      (if negative then signBit else 0) + min bits infinityBits :=
  toNat_pack h

/-- A magnitude beyond infinity is taken down to infinity. -/
theorem toNat_toBits_ofBits (negative : Bool) (bits : ℕ) :
    (ofBits negative bits).toBits.toNat =
      (if negative then signBit else 0) + min bits infinityBits := by
  have hle : min bits infinityBits ≤ infinityBits := Nat.min_le_right _ _
  have hlast : infinityBits < 2 ^ 63 := by decide
  rw [ofBits]
  generalize min bits infinityBits = magnitude at *
  -- the word has the sign bit on top of the magnitude
  obtain ⟨w, hw⟩ : ∃ w, (if negative then signBit + magnitude else magnitude) = w := ⟨_, rfl⟩
  have hword : w = (if negative then signBit else 0) + magnitude ∧ w < 2 ^ 64 ∧
      w % signBit = magnitude ∧ decide (signBit ≤ w) = negative := by
    rw [← hw, show signBit = 2 ^ 63 from rfl]
    cases negative <;> simp <;> omega
  obtain ⟨hsum, hlt, hmod, hsign⟩ := hword
  have hnat : (UInt64.ofNat w).toBitVec.toNat = w := UInt64.toNat_ofNat_of_lt hlt
  have hform := denotes_unpack (b := (UInt64.ofNat w).toBitVec) (by rwa [hnat, hmod])
  rw [hnat, hmod, hsign] at hform
  rw [hw]
  exact (toNat_toBits_pack hform).trans (by rw [Nat.min_eq_left hle])

theorem ofModel_pack {negative : Bool} {u : UnpackedFloat} {bits : ℕ}
    (h : Denotes negative u bits) : Float.ofModel (.pack u) = ofBits negative bits :=
  toNat_toBits_injective ((toNat_toBits_pack h).trans (toNat_toBits_ofBits negative bits).symm)

/-- Up to infinity, a magnitude is read back from the double made of it. -/
@[simp] theorem magnitudeBits_ofBits (negative : Bool) (bits : ℕ) :
    magnitudeBits (ofBits negative bits) = min bits infinityBits := by
  have hle : min bits infinityBits ≤ 2047 * 2 ^ 52 := Nat.min_le_right _ _
  rw [magnitudeBits, toNat_toBits_ofBits, show signBit = 2 ^ 63 from rfl]
  cases negative <;> simp <;> omega

@[simp] theorem isNegative_ofBits (negative : Bool) (bits : ℕ) :
    isNegative (ofBits negative bits) = negative := by
  have hle : min bits infinityBits ≤ 2047 * 2 ^ 52 := Nat.min_le_right _ _
  rw [isNegative, toNat_toBits_ofBits, show signBit = 2 ^ 63 from rfl]
  cases negative <;> simp
  omega

end ScorePortfolio.Binary

import ScorePortfolio.Proofs.Number.Rounding
import Mathlib.Tactic.Positivity

/-!
# The arithmetic of doubles

On finite doubles every operation gives the double nearest to the exact result, and comparing
doubles compares the numbers they stand for.  An operation can therefore leave the range of the
doubles, but the result is a number unless an operand is none or there is no exact result.
-/

namespace ScorePortfolio.Binary

open Float.Model
open Float.Model.UnpackedFloat hiding isFinite isNaN

@[simp] theorem signOf_mul (a b : Bool) : signOf a * signOf b = signOf (a != b) := by
  cases a <;> cases b <;> rfl

@[simp] theorem signOf_div (a b : Bool) : signOf a / signOf b = signOf (a != b) := by
  cases a <;> cases b <;> rfl

@[simp] theorem neg_signOf (a : Bool) : -signOf a = signOf !a := by
  cases a <;> rfl

@[simp] theorem signOf_apply (a : Bool) (z : ℤ) : (signOf a).apply z = if a then -z else z := by
  cases a <;> rfl

theorem exists_unitsInOne : ∃ j : ℕ, j = 1074 ∧ unitsInOne = 2 ^ j := by
  have hpow (n : ℕ) : ∃ j, j = n ∧ 1 <<< n = 2 ^ j := ⟨n, rfl, Nat.one_shiftLeft n⟩
  exact hpow 1074

@[simp] theorem unitsOfBits_zero : unitsOfBits 0 = 0 := rfl

/-! ## Units with a sign -/

section SignedUnits

variable {a a' : Bool} {bits bits' : ℕ}

/-- The units of a sign and the bits of a magnitude. -/
def signedUnits (negative : Bool) (bits : ℕ) : ℤ :=
  if negative then -(unitsOfBits bits : ℤ) else unitsOfBits bits

theorem signedUnits_false (bits : ℕ) : signedUnits false bits = unitsOfBits bits := rfl

theorem signedUnits_true (bits : ℕ) : signedUnits true bits = -unitsOfBits bits := rfl

@[simp] theorem signedUnits_zero (negative : Bool) : signedUnits negative 0 = 0 := by
  cases negative <;> rfl

@[simp] theorem natAbs_signedUnits (negative : Bool) (bits : ℕ) :
    (signedUnits negative bits).natAbs = unitsOfBits bits := by
  cases negative <;> simp [signedUnits]

@[simp] theorem signedUnits_not (negative : Bool) (bits : ℕ) :
    signedUnits (!negative) bits = -signedUnits negative bits := by
  cases negative <;> simp [signedUnits]

/-- The sign of a difference, which is negative for zeros only if both operands say so. -/
def signOfSub (a a' : Bool) (z z' : ℤ) : Bool := if z = z' then a && !a' else z < z'

theorem unitsOfBits_pos (h : 0 < bits) : 0 < unitsOfBits bits :=
  lt_of_not_ge fun hle ↦ h.not_ge (unitsOfBits_le_iff.mp hle)

/-- Only the zeros have no units. -/
theorem signedUnits_eq_zero {negative : Bool} : signedUnits negative bits = 0 ↔ bits = 0 := by
  rw [← Int.natAbs_eq_zero, natAbs_signedUnits]
  constructor
  · intro h
    by_contra hbits
    exact (unitsOfBits_pos (Nat.pos_of_ne_zero hbits)).ne' h
  · rintro rfl
    rfl

theorem signedUnits_false_pos (h : 0 < bits) : 0 < signedUnits false bits :=
  Int.natCast_pos.mpr (unitsOfBits_pos h)

theorem signedUnits_true_neg (h : 0 < bits) : signedUnits true bits < 0 :=
  Int.neg_neg_of_pos (signedUnits_false_pos h)

theorem signOfSub_zero_left (h : 0 < bits) : signOfSub a a' 0 (signedUnits a' bits) = !a' := by
  cases a' with
  | false => simp [signOfSub, signedUnits_false_pos h, (signedUnits_false_pos h).ne]
  | true => simp [signOfSub, (signedUnits_true_neg h).le, (signedUnits_true_neg h).ne']

theorem signOfSub_zero_right (h : 0 < bits) : signOfSub a a' (signedUnits a bits) 0 = a := by
  cases a with
  | false => simp [signOfSub, (signedUnits_false_pos h).le, (signedUnits_false_pos h).ne']
  | true => simp [signOfSub, signedUnits_true_neg h, (signedUnits_true_neg h).ne]

/-- Numbers that are not zero are equal only if their signs are. -/
theorem signOfSub_of_eq (h : 0 < bits) (h' : 0 < bits')
    (heq : signedUnits a bits = signedUnits a' bits') :
    signOfSub a a' (signedUnits a bits) (signedUnits a' bits') = false := by
  have := unitsOfBits_pos h
  have := unitsOfBits_pos h'
  cases a <;> cases a' <;> simp [signOfSub, signedUnits] at heq ⊢ <;> omega

theorem signedUnits_significand {m k : ℕ} (negative : Bool) (h : IsSignificand m k) {i j : ℕ}
    (hk : k = i + j) : signedUnits negative (k * significands + m) =
      (signOf negative).apply ↑(m * 2 ^ i) * 2 ^ j := by
  rw [signedUnits, h.unitsOfBits_eq, signOf_apply, hk, Nat.pow_add, ← Nat.mul_assoc]
  split <;> simp

end SignedUnits

/-! ## Finite forms -/

section Finite

variable {a a' : Bool} {m m' k k' : ℕ} (hs : IsSignificand m k) (hs' : IsSignificand m' k')
  (hm : 0 < m) (hm' : 0 < m')

include hs hs'

/-- The product of two significands has the product of the values as its exact value, which is
rounded once. -/
theorem denotes_mul_finite :
    Denotes (a != a') (UnpackedFloat.mul .binary64 (.finite (signOf a) m (k - 1074) hm)
        (.finite (signOf a') m' (k' - 1074) hm'))
      (nearestBits (unitsOfBits (k * significands + m) * unitsOfBits (k' * significands + m'))
        unitsInOne) := by
  obtain ⟨j, hj, hone⟩ := exists_unitsInOne
  rw [hs.unitsOfBits_eq, hs'.unitsOfBits_eq, UnpackedFloat.mul, signOf_mul, hone]
  refine denotes_exact (i := k + k') (j := j) _ (Nat.two_pow_pos j) (by omega) (by ring) ?_
  rcases hs.le with rfl | hnormal
  · rcases hs'.le with rfl | hnormal'
    · exact .inl (by omega)
    · exact .inr (hnormal'.trans (Nat.le_mul_of_pos_left m' hm))
  · exact .inr (hnormal.trans (Nat.le_mul_of_pos_right m hm'))

/-- The quotient of two significands is computed to as many digits as rounding takes. -/
theorem denotes_div_finite :
    Denotes (a != a') (UnpackedFloat.div .binary64 (.finite (signOf a) m (k - 1074) hm)
        (.finite (signOf a') m' (k' - 1074) hm'))
      (nearestBits (unitsOfBits (k * significands + m) * unitsInOne)
        (unitsOfBits (k' * significands + m'))) := by
  obtain ⟨j, hj, hone⟩ := exists_unitsInOne
  rw [hs.unitsOfBits_eq, hs'.unitsOfBits_eq, UnpackedFloat.div, signOf_div, hone]
  simp only [divCore, Nat.shiftLeft_eq]
  have htarget : Format.binary64.targetExponent (totalExponent m (k - 1074) -
      totalExponent m' (k' - 1074)) = max ((m.log2 : ℤ) - m'.log2 + k - k' - 53) (-1074) := by
    rw [targetExponent_eq, totalExponent, totalExponent]
    omega
  rw [htarget]
  generalize ht : min ((k : ℤ) - 1074 - (k' - 1074))
    (max ((m.log2 : ℤ) - m'.log2 + k - k' - 53) (-1074)) = t
  generalize hn : ((k : ℤ) - 1074 - (k' - 1074) - t).toNat = n
  refine denotes_nearest (i := k + j) (j := k' + n) _ hm' (Nat.mul_pos hm' (Nat.two_pow_pos k'))
    (by omega) (by ring) ?_
  by_cases hlow : t ≤ -1074
  · exact .inl hlow
  right
  rw [Nat.le_div_iff_mul_le hm']
  calc 2 ^ 52 * m'
      _ ≤ 2 ^ 52 * 2 ^ (m'.log2 + 1) := Nat.mul_le_mul_left _ Nat.lt_log2_self.le
      _ = 2 ^ (m'.log2 + 53) := by ring
      _ ≤ 2 ^ (m.log2 + n) := Nat.pow_le_pow_right (by decide) (by omega)
      _ = 2 ^ m.log2 * 2 ^ n := Nat.pow_add ..
      _ ≤ m * 2 ^ n := Nat.mul_le_mul_right _ (Nat.log2_self_le hm.ne')

/-- The difference of two significands is taken at the smaller of the exponents, where it is exact,
and rounded once. -/
theorem denotes_sub_finite :
    Denotes (signOfSub a a' (signedUnits a (k * significands + m))
        (signedUnits a' (k' * significands + m')))
      (UnpackedFloat.sub .binary64 (.finite (signOf a) m (k - 1074) hm)
        (.finite (signOf a') m' (k' - 1074) hm'))
      (nearestBits (signedUnits a (k * significands + m) -
        signedUnits a' (k' * significands + m')).natAbs 1) := by
  -- both are written as multiples of the smaller power of two
  obtain ⟨j, i, i', hk, hk', hmin⟩ : ∃ j i i' : ℕ, k = i + j ∧ k' = i' + j ∧ min k k' = j :=
    ⟨min k k', k - min k k', k' - min k k', by omega, by omega, rfl⟩
  have hexp : min ((k : ℤ) - 1074) (k' - 1074) = j - 1074 := by omega
  have hi : ((k : ℤ) - 1074 - (j - 1074)).toNat = i := by omega
  have hi' : ((k' : ℤ) - 1074 - (j - 1074)).toNat = i' := by omega
  have hsign (heq : signedUnits a (k * significands + m) =
      signedUnits a' (k' * significands + m')) : signOfSub a a' _ _ = false :=
    signOfSub_of_eq (by omega) (by omega) heq
  have hunits := signedUnits_significand a hs hk
  have hunits' := signedUnits_significand a' hs' hk'
  simp only [UnpackedFloat.sub, decreaseExponent, Nat.shiftLeft_eq, hexp, hi, hi']
  rw [hunits, hunits'] at hsign ⊢
  generalize (signOf a).apply ↑(m * 2 ^ i) = z at *
  generalize (signOf a').apply ↑(m' * 2 ^ i') = z' at *
  by_cases heq : z = z'
  · subst heq
    rw [hsign rfl, Int.sub_self, Int.sub_self, Int.natAbs_zero, nearestBits_zero]
    exact .zero
  · have hpow : (0 : ℤ) < 2 ^ j := by positivity
    have hlt : z * 2 ^ j < z' * 2 ^ j ↔ z - z' < 0 := by
      rw [Int.mul_lt_mul_right hpow]
      omega
    rw [signOfSub, if_neg (mt (Int.eq_of_mul_eq_mul_right hpow.ne') heq), ← Int.sub_mul,
      Int.natAbs_mul, Int.natAbs_pow]
    simp only [hlt]
    exact denotes_normalize (sub_ne_zero.mpr heq) j

end Finite

/-! ## Forms -/

section Forms

variable {a a' : Bool} {u u' : UnpackedFloat} {bits bits' : ℕ}

/-- A product of finite doubles is the double nearest to the exact product, with the sign that
differing signs give. -/
theorem Denotes.mul (h : Denotes a u bits) (h' : Denotes a' u' bits') (hlt : bits < infinityBits)
    (hlt' : bits' < infinityBits) : Denotes (a != a') (UnpackedFloat.mul .binary64 u u')
      (nearestBits (unitsOfBits bits * unitsOfBits bits') unitsInOne) := by
  cases h with
  | infinity => exact absurd hlt (lt_irrefl _)
  | zero =>
    have hzero : UnpackedFloat.mul .binary64 (.zero (signOf a)) u' = .zero (signOf (a != a')) := by
      cases h' with
      | infinity => exact absurd hlt' (lt_irrefl _)
      | zero => exact congrArg _ (signOf_mul a a')
      | finite => exact congrArg _ (signOf_mul a a')
    rw [hzero, unitsOfBits_zero, Nat.zero_mul, nearestBits_zero]
    exact .zero
  | finite hs hm =>
    cases h' with
    | infinity => exact absurd hlt' (lt_irrefl _)
    | zero =>
      rw [unitsOfBits_zero, Nat.mul_zero, nearestBits_zero, UnpackedFloat.mul, signOf_mul]
      exact .zero
    | finite hs' hm' => exact denotes_mul_finite hs hs' hm hm'

/-- A quotient of finite doubles is the double nearest to the exact quotient, unless the divisor is
zero. -/
theorem Denotes.div (h : Denotes a u bits) (h' : Denotes a' u' bits') (hlt : bits < infinityBits)
    (hlt' : bits' < infinityBits) (hpos : 0 < bits') :
    Denotes (a != a') (UnpackedFloat.div .binary64 u u')
      (nearestBits (unitsOfBits bits * unitsInOne) (unitsOfBits bits')) := by
  cases h' with
  | infinity => exact absurd hlt' (lt_irrefl _)
  | zero => exact absurd hpos (lt_irrefl _)
  | finite hs' hm' =>
    cases h with
    | infinity => exact absurd hlt (lt_irrefl _)
    | zero =>
      rw [unitsOfBits_zero, Nat.zero_mul, nearestBits_zero, UnpackedFloat.div, signOf_div]
      exact .zero
    | finite hs hm => exact denotes_div_finite hs hs' hm hm'

/-- A difference of finite doubles is the double nearest to the exact difference. -/
theorem Denotes.sub (h : Denotes a u bits) (h' : Denotes a' u' bits') (hlt : bits < infinityBits)
    (hlt' : bits' < infinityBits) :
    Denotes (signOfSub a a' (signedUnits a bits) (signedUnits a' bits'))
      (UnpackedFloat.sub .binary64 u u')
      (nearestBits (signedUnits a bits - signedUnits a' bits').natAbs 1) := by
  cases h with
  | infinity => exact absurd hlt (lt_irrefl _)
  | zero =>
    cases h' with
    | infinity => exact absurd hlt' (lt_irrefl _)
    | zero => cases a <;> cases a' <;> exact .zero
    | finite hs' hm' =>
      rw [signedUnits_zero, signOfSub_zero_left (by omega), Int.zero_sub, Int.natAbs_neg,
        natAbs_signedUnits, nearestBits_unitsOfBits, UnpackedFloat.sub, neg_signOf]
      exact .finite hs' hm'
  | finite hs hm =>
    cases h' with
    | infinity => exact absurd hlt' (lt_irrefl _)
    | zero =>
      rw [signedUnits_zero, signOfSub_zero_right (by omega), Int.sub_zero, natAbs_signedUnits,
        nearestBits_unitsOfBits]
      exact .finite hs hm
    | finite hs' hm' => exact denotes_sub_finite hs hs' hm hm'

/-- Negation turns the sign and leaves the magnitude. -/
theorem Denotes.neg (h : Denotes a u bits) : Denotes (!a) u.neg bits := by
  cases h with
  | zero =>
    rw [UnpackedFloat.neg, neg_signOf]
    exact .zero
  | finite hs hm =>
    rw [UnpackedFloat.neg, neg_signOf]
    exact .finite hs hm
  | infinity =>
    rw [UnpackedFloat.neg, neg_signOf]
    exact .infinity

/-- Adding is taking away the opposite. -/
theorem add_eq_sub_neg (u u' : UnpackedFloat) :
    UnpackedFloat.add .binary64 u u' = UnpackedFloat.sub .binary64 u u'.neg := by
  have happly (s : Sign) (z : ℤ) : (-s).apply z = -s.apply z := by
    cases s with
    | positive => rfl
    | negative => exact (Int.neg_neg z).symm
  have hneg (s : Sign) : - -s = s := by cases s <;> rfl
  cases u <;> cases u' <;>
    simp only [UnpackedFloat.add, UnpackedFloat.sub, UnpackedFloat.neg, hneg, happly, Int.sub_neg]

theorem Denotes.add (h : Denotes a u bits) (h' : Denotes a' u' bits') (hlt : bits < infinityBits)
    (hlt' : bits' < infinityBits) :
    Denotes (signOfSub a (!a') (signedUnits a bits) (-signedUnits a' bits'))
      (UnpackedFloat.add .binary64 u u')
      (nearestBits (signedUnits a bits + signedUnits a' bits').natAbs 1) := by
  have hsub := h.sub h'.neg hlt hlt'
  rwa [signedUnits_not, Int.sub_neg, ← add_eq_sub_neg] at hsub

end Forms

/-! ## Comparing -/

section Comparing

variable {a a' : Bool} {u u' : UnpackedFloat} {bits bits' : ℕ}

theorem unitsOfBits_lt_iff : unitsOfBits bits < unitsOfBits bits' ↔ bits < bits' :=
  lt_iff_lt_of_le_iff_le unitsOfBits_le_iff

/-- Significands are compared after their powers of two. -/
theorem compare_unitsOfBits {m m' k k' : ℕ} (h : IsSignificand m k) (h' : IsSignificand m' k') :
    (compare ((k : ℤ) - 1074) (k' - 1074)).then (compare m m') =
      compare (unitsOfBits (k * significands + m)) (unitsOfBits (k' * significands + m')) := by
  have hlt {m m' k k' : ℕ} (h : IsSignificand m k) (h' : IsSignificand m' k') (hk : k < k') :
      unitsOfBits (k * significands + m) < unitsOfBits (k' * significands + m') := by
    have hm := h.lt
    have hm' := h'.le.resolve_left (by omega)
    rw [unitsOfBits_lt_iff, show significands = 2 ^ 52 from rfl]
    omega
  rcases lt_trichotomy k k' with hk | rfl | hk
  · rw [Int.compare_eq_lt.mpr (by omega), Nat.compare_eq_lt.mpr (hlt h h' hk)]
    rfl
  · rw [Int.compare_eq_eq.mpr rfl, Ordering.eq_then]
    rcases lt_trichotomy m m' with hm | rfl | hm
    · rw [Nat.compare_eq_lt.mpr hm, Nat.compare_eq_lt.mpr (unitsOfBits_lt_iff.mpr (by omega))]
    · rw [Nat.compare_eq_eq.mpr rfl, Nat.compare_eq_eq.mpr rfl]
    · rw [Nat.compare_eq_gt.mpr hm, Nat.compare_eq_gt.mpr (unitsOfBits_lt_iff.mpr (by omega))]
  · rw [Int.compare_eq_gt.mpr (by omega), Nat.compare_eq_gt.mpr (hlt h' h hk)]
    rfl

theorem compare_natCast (m m' : ℕ) : compare (m : ℤ) m' = compare m m' := by
  rcases lt_trichotomy m m' with h | rfl | h
  · rw [Nat.compare_eq_lt.mpr h, Int.compare_eq_lt.mpr (by omega)]
  · rw [Nat.compare_eq_eq.mpr rfl, Int.compare_eq_eq.mpr rfl]
  · rw [Nat.compare_eq_gt.mpr h, Int.compare_eq_gt.mpr (by omega)]

/-- Negation turns comparisons around. -/
theorem compare_neg (z z' : ℤ) : compare (-z) (-z') = (compare z z').swap := by
  rcases lt_trichotomy z z' with h | rfl | h
  · rw [Int.compare_eq_lt.mpr h, Int.compare_eq_gt.mpr (by omega)]
    rfl
  · rw [Int.compare_eq_eq.mpr rfl, Int.compare_eq_eq.mpr rfl]
    rfl
  · rw [Int.compare_eq_gt.mpr h, Int.compare_eq_lt.mpr (by omega)]
    rfl

/-- Comparing forms compares the units that they stand for. -/
theorem Denotes.compare_eq (h : Denotes a u bits) (h' : Denotes a' u' bits')
    (hlt : bits < infinityBits) (hlt' : bits' < infinityBits) :
    u.compare u' = some (compare (signedUnits a bits) (signedUnits a' bits')) := by
  cases h with
  | infinity => exact absurd hlt (lt_irrefl _)
  | zero =>
    cases h' with
    | infinity => exact absurd hlt' (lt_irrefl _)
    | zero =>
      rw [signedUnits_zero, signedUnits_zero]
      rfl
    | @finite m' k' hs' hm' =>
      rw [signedUnits_zero]
      cases a'
      · rw [Int.compare_eq_lt.mpr (signedUnits_false_pos (by omega))]
        rfl
      · rw [Int.compare_eq_gt.mpr (signedUnits_true_neg (by omega))]
        rfl
  | @finite m k hs hm =>
    cases h' with
    | infinity => exact absurd hlt' (lt_irrefl _)
    | zero =>
      rw [signedUnits_zero]
      cases a
      · rw [Int.compare_eq_gt.mpr (signedUnits_false_pos (by omega))]
        rfl
      · rw [Int.compare_eq_lt.mpr (signedUnits_true_neg (by omega))]
        rfl
    | @finite m' k' hs' hm' =>
      have hpos : 0 < k * significands + m := by omega
      have hpos' : 0 < k' * significands + m' := by omega
      have hcompare := compare_unitsOfBits hs hs'
      cases a <;> cases a'
      · rw [signedUnits_false, signedUnits_false, compare_natCast, ← hcompare]
        rfl
      · rw [Int.compare_eq_gt.mpr ((signedUnits_true_neg hpos').trans (signedUnits_false_pos hpos))]
        rfl
      · rw [Int.compare_eq_lt.mpr ((signedUnits_true_neg hpos).trans (signedUnits_false_pos hpos'))]
        rfl
      · rw [signedUnits_true, signedUnits_true, compare_neg, compare_natCast, ← hcompare]
        rfl

end Comparing

/-! ## Doubles -/

variable {x y : Float}

theorem denotes_of_isFinite (h : x.isFinite = true) :
    Denotes (isNegative x) x.toModel.unpack (magnitudeBits x) :=
  denotes (isFinite_iff.mp h).le

theorem units_eq (x : Float) : units x = signedUnits (isNegative x) (magnitudeBits x) := rfl

theorem mul_eq (hx : x.isFinite = true) (hy : y.isFinite = true) :
    x * y = ofBits (isNegative x != isNegative y)
      (nearestBits (magnitude x * magnitude y) unitsInOne) :=
  ofModel_pack ((denotes_of_isFinite hx).mul (denotes_of_isFinite hy) (isFinite_iff.mp hx)
    (isFinite_iff.mp hy))

theorem div_eq (hx : x.isFinite = true) (hy : y.isFinite = true) (hpos : 0 < magnitudeBits y) :
    x / y = ofBits (isNegative x != isNegative y)
      (nearestBits (magnitude x * unitsInOne) (magnitude y)) :=
  ofModel_pack ((denotes_of_isFinite hx).div (denotes_of_isFinite hy) (isFinite_iff.mp hx)
    (isFinite_iff.mp hy) hpos)

theorem sub_eq (hx : x.isFinite = true) (hy : y.isFinite = true) :
    x - y = ofBits (signOfSub (isNegative x) (isNegative y) (units x) (units y))
      (nearestBits (units x - units y).natAbs 1) :=
  ofModel_pack ((denotes_of_isFinite hx).sub (denotes_of_isFinite hy) (isFinite_iff.mp hx)
    (isFinite_iff.mp hy))

theorem add_eq (hx : x.isFinite = true) (hy : y.isFinite = true) :
    x + y = ofBits (signOfSub (isNegative x) (!isNegative y) (units x) (-units y))
      (nearestBits (units x + units y).natAbs 1) :=
  ofModel_pack ((denotes_of_isFinite hx).add (denotes_of_isFinite hy) (isFinite_iff.mp hx)
    (isFinite_iff.mp hy))

theorem compare_eq (hx : x.isFinite = true) (hy : y.isFinite = true) :
    x.toModel.unpack.compare y.toModel.unpack = some (compare (units x) (units y)) :=
  (denotes_of_isFinite hx).compare_eq (denotes_of_isFinite hy) (isFinite_iff.mp hx)
    (isFinite_iff.mp hy)

/-- Finite doubles are in the order of their units. -/
theorem lt_iff (hx : x.isFinite = true) (hy : y.isFinite = true) : x < y ↔ units x < units y := by
  have hlt : x < y ↔ (x.toModel.unpack.compare y.toModel.unpack == some .lt) = true :=
    decide_eq_true_iff
  rw [hlt, compare_eq hx hy, beq_iff_eq, Option.some.injEq, Int.compare_eq_lt]

/-- Finite doubles are equal if their units are, so that the zeros of both signs are. -/
theorem beq_iff (hx : x.isFinite = true) (hy : y.isFinite = true) :
    (x == y) = true ↔ units x = units y := by
  have hbeq : (x == y) = true ↔
      (x.toModel.unpack.compare y.toModel.unpack == some .eq) = true := Iff.rfl
  rw [hbeq, compare_eq hx hy, beq_iff_eq, Option.some.injEq, Int.compare_eq_eq]

end ScorePortfolio.Binary

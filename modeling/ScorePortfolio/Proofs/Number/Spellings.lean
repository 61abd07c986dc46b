import ScorePortfolio.Proofs.Number.Literals
import ScorePortfolio.Proofs.Number.Numerals
import ScorePortfolio.Proofs.Number.Shortest

/-!
# Doubles read from their own text

Every written form of a magnitude is a natural with a point among its digits, and an exponent or
none.  Such a text spells the natural times a power of ten; the point and the exponent only shift
it.  So the text of a finite double spells a shortest decimal of it, and is read as the same double:
the sign is written apart, also that of a negative zero.
-/

namespace ScorePortfolio

/-- A finite double consists of a sign and the bits of a magnitude. -/
theorem Binary.ofBits_magnitudeBits {x : Float} (h : x.isFinite = true) :
    ofBits (isNegative x) (magnitudeBits x) = x := by
  have hlt : x.toBits.toNat < 2 ^ 64 := UInt64.toNat_lt _
  refine toNat_toBits_injective ?_
  dsimp only
  rw [toNat_toBits_ofBits, Nat.min_eq_left (isFinite_iff.mp h).le, magnitudeBits, isNegative,
    show signBit = 2 ^ 63 from rfl]
  by_cases hsign : 2 ^ 63 ≤ x.toBits.toNat
  · rw [decide_eq_true hsign, if_pos rfl]
    omega
  · rw [decide_eq_false hsign, if_neg Bool.false_ne_true]
    omega

namespace Decimal

open Binary Text

/-! ## Digits -/

section Digits

variable {n width : ℕ} {c : Char}

theorem toList_pushn (s : String) (c : Char) (n : ℕ) :
    (s.pushn c n).toList = s.toList ++ List.replicate n c := by
  induction n with
  | zero => exact (List.append_nil _).symm
  | succ n ih =>
    have hpush : s.pushn c (n + 1) = (s.pushn c n).push c := rfl
    rw [hpush, String.toList_push, ih, List.append_assoc, List.replicate_succ']

theorem isDigit_of_mem_toString (h : c ∈ (toString n).toList) : c.isDigit = true :=
  Nat.isDigit_of_mem_toDigits (by decide) (by decide) (toList_toString n ▸ h)

theorem toString_ne_nil (n : ℕ) : (toString n).toList ≠ [] :=
  toList_toString n ▸ Nat.toDigits_ne_nil

theorem toList_padded (width n : ℕ) : (padded width n).toList =
    List.replicate (width - (toString n).length) '0' ++ (toString n).toList := by
  rw [padded, String.toList_append, toList_pushn]
  rfl

theorem isDigit_of_mem_padded (h : c ∈ (padded width n).toList) : c.isDigit = true := by
  rw [toList_padded, List.mem_append] at h
  rcases h with h | h
  · rw [List.eq_of_mem_replicate h]
    rfl
  · exact isDigit_of_mem_toString h

theorem padded_ne_nil (width n : ℕ) : (padded width n).toList ≠ [] := by
  rw [toList_padded]
  exact List.append_ne_nil_of_right_ne_nil _ (toString_ne_nil n)

/-- A number below the power of ten is padded to exactly the width. -/
theorem length_padded (hwidth : 0 < width) (h : n < 10 ^ width) :
    (padded width n).toList.length = width := by
  have hlen := (Nat.length_toDigits_le_iff (by decide) hwidth).mpr h
  rw [← toList_toString, String.length_toList] at hlen
  rw [toList_padded, List.length_append, List.length_replicate, String.length_toList]
  omega

/-- Digits that follow move those before them to higher places. -/
theorem natOfDigits_append (cs ds : List Char) :
    natOfDigits (cs ++ ds) = natOfDigits cs * 10 ^ ds.length + natOfDigits ds := by
  have hsplit := (Nat.ofDigitChars_append (b := 10) (l := cs) (m := ds) 0).trans
    Nat.ofDigitChars_eq_ofDigitChars_zero
  rw [Nat.mul_comm]
  exact hsplit

theorem natOfDigits_toString (n : ℕ) : natOfDigits (toString n).toList = n := by
  rw [toList_toString, natOfDigits_toDigits]

/-- Padding with zeros does not change the number. -/
theorem natOfDigits_padded (width n : ℕ) : natOfDigits (padded width n).toList = n := by
  have hzeros (i : ℕ) : natOfDigits (List.replicate i '0') = 0 :=
    Nat.ofDigitChars_replicate_zero.trans (Nat.mul_zero _)
  rw [toList_padded, natOfDigits_append, hzeros, Nat.zero_mul, Nat.zero_add, natOfDigits_toString]

/-- A pointed number is its whole part, the point and the padded rest. -/
theorem toList_pointed {places : ℕ} (hplaces : 0 < places) (n : ℕ) :
    (pointed places n).toList = (toString (n / 10 ^ places)).toList ++
      '.' :: (padded places (n % 10 ^ places)).toList := by
  have hpow : Nat.pow 10 places = 10 ^ places := rfl
  have hpoint : ".".toList = ['.'] := rfl
  rw [pointed, if_neg hplaces.ne', hpow, String.toList_append, String.toList_append, hpoint,
    List.append_assoc, List.singleton_append]

/-- The digits on both sides of a point are those of the natural. -/
theorem natOfDigits_around_point {places : ℕ} (hplaces : 0 < places) (n : ℕ) :
    natOfDigits ((toString (n / 10 ^ places)).toList ++
      (padded places (n % 10 ^ places)).toList) = n := by
  rw [natOfDigits_append, natOfDigits_toString, natOfDigits_padded,
    length_padded hplaces (Nat.mod_lt _ (by positivity))]
  exact Nat.div_add_mod' n _

end Digits

/-! ## Characters -/

/-- A character of a written number. -/
def IsPlain (c : Char) : Prop := c.isDigit = true ∨ c ∈ ['-', '+', '.', 'e']

section Plain

variable {c : Char}

/-- Such a character is no blank, and stands for itself. -/
theorem IsPlain.isBlank_and_plain? (h : IsPlain c) : isBlank c = false ∧ plain? c = some c := by
  have hother : ∀ c ∈ ['-', '+', '.', 'e'], isBlank c = false ∧ plain? c = some c := by
    simp only [List.forall_mem_cons]
    exact ⟨⟨rfl, rfl⟩, ⟨rfl, rfl⟩, ⟨rfl, rfl⟩, ⟨rfl, rfl⟩, nofun⟩
  exact h.elim (fun h ↦ ⟨isBlank_of_isDigit h, plain?_of_isDigit h⟩) (hother c)

/-- Plain characters are taken over as they are. -/
theorem numeral?_of_isPlain {s : String} (h : ∀ c ∈ s.toList, IsPlain c) :
    numeral? s = some s.toList := by
  refine numeral?_eq_self (fun c hc ↦ (h c hc).isBlank_and_plain?.1)
    (fun c hc ↦ (h c hc).isBlank_and_plain?.2) fun hmem ↦ ?_
  rcases h _ hmem with hdigit | hother
  · cases hdigit
  · exact absurd hother (by decide)

end Plain

/-! ## Points -/

section Points

variable {whole fraction rest : List Char} {e : ℤ}

/-- Digits with a point among them are one natural; those after the point count as places. -/
theorem decimal?_pointed (hne : whole ≠ []) (hwhole : ∀ c ∈ whole, c.isDigit = true)
    (hfraction : ∀ c ∈ fraction, c.isDigit = true) (hrest : ∀ c ∈ rest.head?, c.isDigit = false)
    (he : exponent? rest = some e) : decimal? (whole ++ '.' :: (fraction ++ rest)) =
      some (natOfDigits (whole ++ fraction), e - fraction.length) := by
  have hpoint : ∀ c ∈ ('.' :: (fraction ++ rest)).head?, c.isDigit = false := by
    rintro c ⟨⟩
    rfl
  obtain ⟨htake, hdrop⟩ := takeWhile_digits hwhole hpoint
  obtain ⟨htake', hdrop'⟩ := takeWhile_digits hfraction hrest
  rw [decimal?, htake, hdrop, splitFraction]
  simp [htake', hdrop', hne, he]

end Points

/-! ## Exponents -/

/-- What may stand after the digits of a decimal: nothing, or an exponent. -/
inductive EndsIn : List Char → ℤ → Prop where
  | nothing : EndsIn [] 0
  | exponent (k : ℤ) : EndsIn (exponentText k).toList k

theorem toList_exponentText (k : ℤ) : (exponentText k).toList =
    'e' :: (if k < 0 then '-' else '+') :: (padded 2 k.natAbs).toList := by
  rw [exponentText, String.toList_append]
  split <;> rfl

section Endings

variable {rest : List Char} {e : ℤ}

theorem EndsIn.isPlain (h : EndsIn rest e) : ∀ c ∈ rest, IsPlain c := by
  cases h with
  | nothing => exact fun c hc ↦ absurd hc List.not_mem_nil
  | exponent =>
    intro c hc
    rw [toList_exponentText, List.mem_cons, List.mem_cons] at hc
    rcases hc with rfl | rfl | hc
    · exact .inr (by decide)
    · right
      split <;> decide
    · exact .inl (isDigit_of_mem_padded hc)

/-- What follows the digits of a number starts with neither a digit nor a point. -/
theorem EndsIn.head (h : EndsIn rest e) : ∀ c ∈ rest.head?, c.isDigit = false ∧ c ≠ '.' := by
  cases h with
  | nothing => nofun
  | exponent =>
    rw [toList_exponentText]
    rintro c ⟨⟩
    decide

/-- The end of a number is read as its exponent. -/
theorem EndsIn.exponent? (h : EndsIn rest e) : exponent? rest = some e := by
  cases h with
  | nothing => rfl
  | exponent =>
    have hdigits : (padded 2 e.natAbs).toList.all Char.isDigit = true :=
      List.all_eq_true.mpr fun c hc ↦ isDigit_of_mem_padded hc
    have hlower : 'e'.toLower = 'e' := by decide
    have hvalue := natOfDigits_padded 2 e.natAbs
    have hne := padded_ne_nil 2 e.natAbs
    rw [toList_exponentText]
    generalize (padded 2 e.natAbs).toList = digits at *
    split
    · next hsign =>
      obtain rfl : e = -(natOfDigits digits : ℤ) := by omega
      simp [Decimal.exponent?, splitSign, hlower, hne, hdigits]
    · next hsign =>
      obtain rfl : e = (natOfDigits digits : ℤ) := by omega
      simp [Decimal.exponent?, splitSign, hlower, hne, hdigits]

end Endings

/-! ## Spelled decimals -/

/-- Characters with a digit at the front that spell a natural times a power of ten. -/
structure Spells (cs : List Char) (m : ℕ) (k : ℤ) : Prop where
  isPlain : ∀ c ∈ cs, IsPlain c
  head : ∃ c rest, cs = c :: rest ∧ c.isDigit = true
  decimal?_eq : decimal? cs = some (m, k)

/-- A point shifts the natural, and so does an exponent. -/
theorem EndsIn.spells {rest : List Char} {e : ℤ} (h : EndsIn rest e) (places n : ℕ) :
    Spells ((pointed places n).toList ++ rest) n (e - places) := by
  have hhead {m : ℕ} (cs : List Char) :
      ∃ c cs', (toString m).toList ++ cs = c :: cs' ∧ c.isDigit = true := by
    obtain ⟨c, cs', hcons⟩ := List.exists_cons_of_ne_nil (toString_ne_nil m)
    exact ⟨c, cs' ++ cs, by rw [hcons]; rfl, isDigit_of_mem_toString (hcons ▸ List.mem_cons_self)⟩
  rcases Nat.eq_zero_or_pos places with rfl | hplaces
  · rw [pointed, if_pos rfl]
    refine ⟨fun c hc ↦ ?_, hhead rest, ?_⟩
    · exact (List.mem_append.mp hc).elim (fun hc ↦ .inl (isDigit_of_mem_toString hc)) (h.isPlain c)
    · rw [decimal?_whole (toString_ne_nil n) (fun _ ↦ isDigit_of_mem_toString) h.head h.exponent?,
        natOfDigits_toString, Nat.cast_zero, sub_zero]
  · have hlen := length_padded hplaces (Nat.mod_lt n (by positivity : 0 < 10 ^ places))
    have hvalue := natOfDigits_around_point hplaces n
    rw [toList_pointed hplaces, List.append_assoc, List.cons_append]
    refine ⟨fun c hc ↦ ?_, hhead _, ?_⟩
    · rw [List.mem_append, List.mem_cons, List.mem_append] at hc
      rcases hc with hc | rfl | hc | hc
      · exact .inl (isDigit_of_mem_toString hc)
      · exact .inr (by decide)
      · exact .inl (isDigit_of_mem_padded hc)
      · exact h.isPlain c hc
    · rw [decimal?_pointed (toString_ne_nil _) (fun _ ↦ isDigit_of_mem_toString)
        (fun _ ↦ isDigit_of_mem_padded) (fun c hc ↦ (h.head c hc).1) h.exponent?, hvalue, hlen]

theorem spells_pointed (places n : ℕ) : Spells (pointed places n).toList n (-places) := by
  simpa using EndsIn.nothing.spells places n

theorem spells_scientific (places n : ℕ) (k : ℤ) :
    Spells (pointed places n ++ exponentText k).toList n (k - places) :=
  String.toList_append ▸ (EndsIn.exponent k).spells places n

/-- A whole number is written with one zero after the point. -/
theorem pointed_one_mul_ten (n : ℕ) : pointed 1 (n * 10) = toString n ++ ".0" := by
  have hpow : Nat.pow 10 1 = 10 := rfl
  have hzero : padded 1 0 = "0" := by decide
  rw [pointed, if_neg one_ne_zero, hpow, Nat.mul_div_cancel _ (by decide), Nat.mul_mod_left, hzero,
    String.append_assoc]
  rfl

theorem spells_integral (n : ℕ) : Spells (toString n ++ ".0").toList (n * 10) (-1) :=
  pointed_one_mul_ten n ▸ spells_pointed 1 (n * 10)

/-- A decimal with a sign or none in front is read to the nearest double. -/
theorem Spells.double? {t : String} {m : ℕ} {k : ℤ} (h : Spells t.toList m k)
    (hm : m.log2 ≤ 100000) (negative : Bool) : double? ((if negative then "-" else "") ++ t) =
      some (ofBits negative (bitsNearest (m * 10 ^ k))) := by
  have hchars : numeral? ((if negative then "-" else "") ++ t) =
      some ((if negative then ['-'] else []) ++ t.toList) := by
    rw [numeral?_of_isPlain]
    · rw [String.toList_append]
      cases negative <;> rfl
    · intro c hc
      rw [String.toList_append, List.mem_append] at hc
      refine hc.elim (fun hc ↦ .inr ?_) (h.isPlain c)
      cases negative with
      | false => cases hc
      | true =>
        obtain rfl := List.mem_singleton.mp hc
        decide
  have hsplit : splitSign ((if negative then ['-'] else []) ++ t.toList) =
      (negative, t.toList) := by
    cases negative with
    | true => rfl
    | false =>
      obtain ⟨c, rest, hcons, hc⟩ := h.head
      rw [if_neg Bool.false_ne_true, List.nil_append, hcons, splitSign.eq_3]
      · rintro _ ⟨⟩
        cases hc
      · rintro _ ⟨⟩
        cases hc
  rw [Decimal.double?, hchars]
  simp only [Option.bind_eq_bind, Option.bind_some, hsplit, specialWord?_of_head h.head,
    h.decimal?_eq, nearestDecimal_eq negative k hm]

/-! ## Written magnitudes -/

/-- The natural has at most that many digits, zeros at its end apart. -/
def HasDigits (count m : ℕ) : Prop := ∃ m₀ j : ℕ, m = m₀ * 10 ^ j ∧ m₀ < 10 ^ count

/-- A decimal that reads back to a magnitude.  No decimal that reads back has fewer digits, and none
that has as many is closer. -/
structure IsShortestDecimal (bits m : ℕ) (k : ℤ) : Prop where
  reads : bitsNearest (m * 10 ^ k) = bits
  minimal : ∀ (m' : ℕ) (k' : ℤ) (n : ℕ), HasDigits n m' → bitsNearest (m' * 10 ^ k') = bits →
    HasDigits n m
  closest : ∀ (m' : ℕ) (k' : ℤ), (∀ n, HasDigits n m → HasDigits n m') →
    bitsNearest (m' * 10 ^ k') = bits →
    |m * 10 ^ k - valueOfBits bits| ≤ |m' * 10 ^ k' - valueOfBits bits|

section Magnitudes

variable {bits count : ℕ} {lead : Leading}

/-- Zero is its own shortest decimal. -/
theorem isShortestDecimal_zero (k : ℤ) : IsShortestDecimal 0 0 k where
  reads := by rw [Nat.cast_zero, zero_mul, bitsNearest_zero]
  minimal _ _ n _ _ := ⟨0, 0, rfl, by positivity⟩
  closest _ _ _ _ := by
    rw [valueOfBits, unitsOfBits_zero, Nat.cast_zero, zero_mul, zero_div, sub_zero, abs_zero]
    exact abs_nonneg _

theorem mul_ten_pow_mul_zpow (m₀ j : ℕ) (k : ℤ) :
    ((m₀ * 10 ^ j : ℕ) * 10 ^ k : ℚ) = m₀ * 10 ^ (k + j) := by
  rw [Nat.cast_mul, Nat.cast_pow, Nat.cast_ofNat, mul_assoc, zpow_add₀ (by norm_num), zpow_natCast,
    mul_comm (10 ^ k : ℚ)]

/-- Shortest digits are a shortest decimal, also with zeros behind them. -/
theorem IsShortest.isShortestDecimal (h : IsShortest bits count lead) {j : ℕ} {k : ℤ}
    (hk : k + j = (normalized count lead).first - (count - 1)) :
    IsShortestDecimal bits ((normalized count lead).significand * 10 ^ j) k := by
  have hlt := normalized_lt h.pos h.significand_le
  have hvalue : (((normalized count lead).significand * 10 ^ j : ℕ) * 10 ^ k : ℚ) =
      lead.value count := by
    rw [mul_ten_pow_mul_zpow, hk, ← normalized_value h.pos, Leading.value]
  refine ⟨hvalue ▸ h.reads, ?_, ?_⟩
  · rintro m k n ⟨m₀, j', rfl, hm⟩ hreads
    rw [mul_ten_pow_mul_zpow] at hreads
    exact ⟨_, j, rfl, hlt.trans_le (Nat.pow_le_pow_right (by decide) (h.minimal _ _ n hm hreads))⟩
  · rintro m k' hdigits hreads
    obtain ⟨m₀, j', rfl, hm⟩ := hdigits count ⟨_, j, rfl, hlt⟩
    rw [mul_ten_pow_mul_zpow] at hreads
    rw [hvalue, mul_ten_pow_mul_zpow]
    exact h.closest _ _ hm hreads

theorem IsShortest.significand_lt (h : IsShortest bits count lead) :
    (normalized count lead).significand < 10 ^ 17 :=
  (normalized_lt h.pos h.significand_le).trans_le (Nat.pow_le_pow_right (by decide) h.le)

/-- The positional form spells a shortest decimal.  If all digits stand before the point, zeros fill
the places up to it. -/
theorem IsShortest.exists_spells_positional (h : IsShortest bits count lead)
    (hlast : (normalized count lead).first < 16) :
    ∃ m k, Spells (positional count (normalized count lead)).toList m k ∧ m < 10 ^ 34 ∧
      IsShortestDecimal bits m k := by
  have hcount := h.pos
  have hlt := h.significand_lt
  have hdecimal (j : ℕ) (k : ℤ) := h.isShortestDecimal (j := j) (k := k)
  generalize normalized count lead = digits at *
  rw [positional]
  split
  · next hpoint =>
    obtain ⟨i, hi⟩ := Int.eq_ofNat_of_zero_le (sub_nonneg.mpr hpoint)
    have hbound : digits.significand * 10 ^ (i + 1) < 10 ^ 17 * 10 ^ 17 :=
      Nat.mul_lt_mul_of_lt_of_le hlt (Nat.pow_le_pow_right (by decide) (by omega)) (by positivity)
    have hchars := spells_integral (digits.significand * 10 ^ i)
    rw [Nat.mul_assoc, ← Nat.pow_succ] at hchars
    rw [hi]
    exact ⟨_, _, hchars, hbound, hdecimal (i + 1) (-1) (by push_cast; omega)⟩
  · next hpoint =>
    have hshort := hdecimal 0 (-((count : ℤ) - 1 - digits.first).toNat) (by omega)
    rw [Nat.pow_zero, Nat.mul_one] at hshort
    exact ⟨_, _, spells_pointed _ _, hlt.trans (by decide), hshort⟩

/-- The form of a magnitude spells a shortest decimal of it. -/
theorem exists_spells_shortestUnits (hfin : bits < infinityBits) :
    ∃ m k, Spells (shortestUnits bits).toList m k ∧ m < 10 ^ 34 ∧ IsShortestDecimal bits m k := by
  rcases Nat.eq_zero_or_pos bits with rfl | hpos
  · exact ⟨_, _, spells_integral 0, by decide, isShortestDecimal_zero _⟩
  have h := isShortest_shortest hpos hfin
  rw [shortestUnits, if_neg hpos.ne']
  generalize shortest bits = result at *
  obtain ⟨count, lead⟩ := result
  dsimp only at *
  split
  · next hrange => exact h.exists_spells_positional hrange.2
  · have hcount := h.pos
    have hfirst : (normalized count lead).first - (count - 1 : ℕ) + (0 : ℕ) =
        (normalized count lead).first - (count - 1) := by omega
    have hshort := h.isShortestDecimal hfirst
    rw [Nat.pow_zero, Nat.mul_one] at hshort
    exact ⟨_, _, spells_scientific _ _ _, h.significand_lt.trans (by decide), hshort⟩

end Magnitudes

/-! ## Written doubles -/

/-- The text is the sign of the double, then a shortest decimal of its magnitude.  It is read as the
double, sign included, and no double is closer to what it spells. -/
structure Writes (t : String) (x : Float) : Prop where
  spells : ∃ digits m k, t = (if isNegative x then "-" else "") ++ digits ∧
    decimal? digits.toList = some (m, k) ∧ IsShortestDecimal (magnitudeBits x) m k ∧
    ∀ bits, |valueOfBits (magnitudeBits x) - m * 10 ^ k| ≤ |valueOfBits bits - m * 10 ^ k|
  double?_eq : double? t = some x

/-- A finite double is read back from its text. -/
theorem writes_shortestText {x : Float} (h : x.isFinite = true) : Writes (shortestText x) x := by
  obtain ⟨m, k, hspells, hm, hshort⟩ := exists_spells_shortestUnits (isFinite_iff.mp h)
  have hlog : m.log2 ≤ 100000 := by
    rcases Nat.eq_zero_or_pos m with rfl | hpos
    · exact Nat.zero_le _
    · exact ((Nat.log2_lt hpos.ne').mpr (hm.trans (by decide : 10 ^ 34 < 2 ^ 113))).le.trans
        (by decide)
  have hclosest := bitsNearest_closest (q := m * 10 ^ k) (by positivity)
  rw [hshort.reads] at hclosest
  rw [shortestText, nonFinite?_eq_none.mpr h]
  refine ⟨⟨_, m, k, rfl, hspells.decimal?_eq, hshort, hclosest⟩, ?_⟩
  rw [hspells.double? hlog, hshort.reads, ofBits_magnitudeBits h]

end Decimal

end ScorePortfolio

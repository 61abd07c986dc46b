import ScorePortfolio.Proofs.Number.Decimals

/-!
# Shortest decimals

The digits that are chosen for a double read back to it; no decimal with fewer digits does, and none
with as many that does is closer.  Reading is monotone, so if a decimal of a given number of digits
reads back, then so does the neighbour of the double on its side; this is why only the two
neighbours are tried.  With seventeen digits the grid is fine enough for the nearer neighbour to
read back.
-/

namespace ScorePortfolio.Decimal

open Binary

/-- The number that leading digits stand for. -/
def Leading.value (count : ℕ) (lead : Leading) : ℚ :=
  lead.significand * 10 ^ (lead.first - (count - 1))

section Normalized

variable {count : ℕ} {lead : Leading}

/-- Leading digits that are carried to the next power of ten keep their value. -/
theorem normalized_value (hcount : 1 ≤ count) (lead : Leading) :
    (normalized count lead).value count = lead.value count := by
  obtain ⟨n, rfl⟩ := Nat.exists_eq_add_of_le' hcount
  rw [normalized]
  split
  · next h =>
    rw [Leading.value, Leading.value, h, Nat.pow_eq, Nat.pow_eq, Nat.add_sub_cancel, Nat.cast_pow,
      Nat.cast_pow, Nat.cast_ofNat, ← zpow_natCast, ← zpow_natCast, ← zpow_add₀ (by norm_num),
      ← zpow_add₀ (by norm_num)]
    congr 1
    push_cast
    ring
  · rfl

/-- After that they are as many as asked for. -/
theorem normalized_lt (hcount : 1 ≤ count) (h : lead.significand ≤ 10 ^ count) :
    (normalized count lead).significand < 10 ^ count := by
  rw [normalized]
  split
  · exact Nat.pow_lt_pow_right (by decide) (by omega)
  · next hne => exact lt_of_le_of_ne h hne

end Normalized

/-! ## The neighbours of a double -/

/-- The place of the last one of a number of leading digits of a magnitude. -/
def lastPlace (units count : ℕ) : ℤ := exponent units unitsInOne - (count - 1)

/-- The leading digits of a magnitude, cut after a number of them. -/
def cutDigits (units count : ℕ) : ℕ :=
  (scaleTen units unitsInOne (-lastPlace units count)).1 /
    (scaleTen units unitsInOne (-lastPlace units count)).2

/-- The leading digits of a magnitude, rounded after a number of them. -/
def roundedDigits (units count : ℕ) : ℕ :=
  divHalfEven (scaleTen units unitsInOne (-lastPlace units count)).1
    (scaleTen units unitsInOne (-lastPlace units count)).2

/-- The neighbour that rounding does not choose. -/
def otherDigits (units count : ℕ) : ℕ :=
  if roundedDigits units count = cutDigits units count then cutDigits units count + 1
  else cutDigits units count

section Neighbours

variable {bits units count : ℕ} {lead : Leading}

/-- Rounding chooses one of the two neighbours. -/
theorem roundedDigits_cases (units count : ℕ) :
    roundedDigits units count = cutDigits units count ∧
        otherDigits units count = cutDigits units count + 1 ∨
      roundedDigits units count = cutDigits units count + 1 ∧
        otherDigits units count = cutDigits units count := by
  have hcases : roundedDigits units count = cutDigits units count ∨
      roundedDigits units count = cutDigits units count + 1 :=
    (divHalfEven_cases _ _).imp And.left And.left
  rw [otherDigits]
  split <;> omega

/-- The candidate with a number of digits is the rounded one, or else the other neighbour, if one of
them reads back. -/
theorem candidate?_eq (bits units count : ℕ) : candidate? bits units count =
    if readsBack bits (roundedDigits units count) (lastPlace units count) then
      some ⟨roundedDigits units count, exponent units unitsInOne⟩
    else if readsBack bits (otherDigits units count) (lastPlace units count) then
      some ⟨otherDigits units count, exponent units unitsInOne⟩
    else none := by
  unfold candidate? otherDigits roundedDigits cutDigits lastPlace
  generalize unitsInOne = one
  rfl

theorem value_mk (units count n : ℕ) :
    Leading.value count ⟨n, exponent units unitsInOne⟩ = n * 10 ^ lastPlace units count := by
  rw [Leading.value, lastPlace]

/-- A candidate is one of the two neighbours, and reads back. -/
theorem candidate?_eq_some (h : candidate? bits units count = some lead) :
    bitsNearest (lead.value count) = bits ∧ lead.significand ≤ cutDigits units count + 1 := by
  have hcases := roundedDigits_cases units count
  have hvalue := value_mk units count
  rw [candidate?_eq] at h
  generalize exponent units unitsInOne = first at *
  split at h
  · next hreads =>
    obtain rfl := Option.some.inj h
    exact ⟨(hvalue _).symm ▸ readsBack_iff.mp hreads, by dsimp only; omega⟩
  split at h
  · next hreads =>
    obtain rfl := Option.some.inj h
    exact ⟨(hvalue _).symm ▸ readsBack_iff.mp hreads, by dsimp only; omega⟩
  · cases h

/-- Where there is no candidate, neither neighbour reads back. -/
theorem candidate?_eq_none (h : candidate? bits units count = none) :
    bitsNearest (cutDigits units count * 10 ^ lastPlace units count) ≠ bits ∧
      bitsNearest ((cutDigits units count + 1 : ℕ) * 10 ^ lastPlace units count) ≠ bits := by
  have hcases := roundedDigits_cases units count
  rw [candidate?_eq] at h
  generalize exponent units unitsInOne = first at *
  split at h
  · cases h
  next hrounded =>
  split at h
  · cases h
  next hother =>
  rw [readsBack_iff] at hrounded hother
  rcases hcases with ⟨hr, ho⟩ | ⟨hr, ho⟩
  · exact ⟨hr ▸ hrounded, ho ▸ hother⟩
  · exact ⟨ho ▸ hother, hr ▸ hrounded⟩

end Neighbours

/-! ## Grids -/

section Grid

variable {bits count : ℕ} (hpos : 0 < bits) (hfin : bits < infinityBits)

include hfin

theorem log2_unitsOfBits_lt : (unitsOfBits bits).log2 < 2099 := by
  have hlast : (unitsOfBits infinityBits).log2 < 2099 := by decide +kernel
  refine lt_of_le_of_lt ?_ hlast
  rw [Nat.log2_eq_log_two, Nat.log2_eq_log_two]
  exact Nat.log_mono_right (unitsOfBits_le_iff.mpr hfin.le)

include hpos

/-- The leading digit of a finite magnitude. -/
theorem exponent_bounds_bits :
    (10 : ℚ) ^ exponent (unitsOfBits bits) unitsInOne ≤ valueOfBits bits ∧
      valueOfBits bits < 10 ^ (exponent (unitsOfBits bits) unitsInOne + 1) :=
  exponent_bounds (unitsOfBits_pos hpos) unitsInOne_pos
    ((log2_unitsOfBits_lt hfin).trans (by decide)) (by decide +kernel)

omit hpos hfin in
theorem scaled_lastPlace (bits count : ℕ) :
    ((scaleTen (unitsOfBits bits) unitsInOne (-lastPlace (unitsOfBits bits) count)).1 : ℚ) /
        (scaleTen (unitsOfBits bits) unitsInOne (-lastPlace (unitsOfBits bits) count)).2 =
      valueOfBits bits / 10 ^ lastPlace (unitsOfBits bits) count := by
  rw [scaleTen_div, zpow_neg, ← div_eq_mul_inv, valueOfBits]

omit hpos hfin in
/-- The cut digits and their successor are the neighbours of the magnitude on the grid. -/
theorem cutDigits_bounds (bits count : ℕ) :
    (cutDigits (unitsOfBits bits) count : ℚ) * 10 ^ lastPlace (unitsOfBits bits) count ≤
        valueOfBits bits ∧
      valueOfBits bits < (cutDigits (unitsOfBits bits) count + 1 : ℕ) *
        10 ^ lastPlace (unitsOfBits bits) count := by
  have hden := scaleTen_pos (unitsOfBits bits) unitsInOne_pos
    (-lastPlace (unitsOfBits bits) count)
  have hpow : (0 : ℚ) < 10 ^ lastPlace (unitsOfBits bits) count := by positivity
  rw [← le_div_iff₀ hpow, ← div_lt_iff₀ hpow, ← scaled_lastPlace, cutDigits]
  refine ⟨Nat.cast_div_le, ?_⟩
  rw [div_lt_iff₀ (Nat.cast_pos.mpr hden), mul_comm]
  exact_mod_cast Nat.lt_mul_div_succ _ hden

/-- Cutting off leaves as many digits as asked for. -/
theorem cutDigits_lt (count : ℕ) : cutDigits (unitsOfBits bits) count < 10 ^ count := by
  have hbelow := (cutDigits_bounds bits count).1.trans_lt (exponent_bounds_bits hpos hfin).2
  have hgrid : (10 : ℚ) ^ (exponent (unitsOfBits bits) unitsInOne + 1) =
      (10 ^ count : ℕ) * 10 ^ lastPlace (unitsOfBits bits) count := by
    rw [Nat.cast_pow, Nat.cast_ofNat, ← zpow_natCast, ← zpow_add₀ (by norm_num), lastPlace]
    ring_nf
  rw [hgrid, mul_lt_mul_iff_of_pos_right (by positivity)] at hbelow
  exact_mod_cast hbelow

/-- The power of ten that the leading digit counts is on the grid. -/
theorem le_cutDigits (hcount : 1 ≤ count) :
    10 ^ (count - 1) ≤ cutDigits (unitsOfBits bits) count := by
  have habove := (exponent_bounds_bits hpos hfin).1.trans_lt (cutDigits_bounds bits count).2
  have hgrid : (10 : ℚ) ^ exponent (unitsOfBits bits) unitsInOne =
      (10 ^ (count - 1) : ℕ) * 10 ^ lastPlace (unitsOfBits bits) count := by
    rw [Nat.cast_pow, Nat.cast_ofNat, ← zpow_natCast, ← zpow_add₀ (by norm_num), lastPlace,
      Nat.cast_sub hcount]
    ring_nf
  rw [hgrid, mul_lt_mul_iff_of_pos_right (by positivity)] at habove
  exact Nat.lt_succ_iff.mp (by exact_mod_cast habove)

/-- No decimal with at most that many digits lies strictly between the neighbours. -/
theorem le_or_le_of_lt {m : ℕ} {k : ℤ} (hm : m < 10 ^ count) :
    (m * 10 ^ k : ℚ) ≤
        cutDigits (unitsOfBits bits) count * 10 ^ lastPlace (unitsOfBits bits) count ∨
      ((cutDigits (unitsOfBits bits) count + 1 : ℕ) *
        10 ^ lastPlace (unitsOfBits bits) count : ℚ) ≤ m * 10 ^ k := by
  rcases Nat.eq_zero_or_pos count with rfl | hcount
  · obtain rfl : m = 0 := by omega
    left
    rw [Nat.cast_zero, zero_mul]
    positivity
  have hlead := le_cutDigits hpos hfin hcount
  generalize cutDigits (unitsOfBits bits) count = below at *
  generalize lastPlace (unitsOfBits bits) count = last at *
  have hpow : (0 : ℚ) < 10 ^ last := by positivity
  rcases le_or_gt last k with hk | hk
  · -- on a grid that is as coarse every decimal is on the grid
    obtain ⟨j, hj⟩ := Int.eq_ofNat_of_zero_le (sub_nonneg.mpr hk)
    have hgrid : (m * 10 ^ k : ℚ) = (m * 10 ^ j : ℕ) * 10 ^ last := by
      rw [show k = j + last by omega, zpow_add₀ (by norm_num), Nat.cast_mul, Nat.cast_pow,
        Nat.cast_ofNat, zpow_natCast, mul_assoc]
    rw [hgrid, mul_le_mul_iff_of_pos_right hpow, mul_le_mul_iff_of_pos_right hpow, Nat.cast_le,
      Nat.cast_le]
    omega
  · -- on a finer grid the digits do not reach the leading one
    left
    have hcast : (m : ℚ) ≤ 10 ^ (count : ℤ) := by
      rw [zpow_natCast]
      exact_mod_cast hm.le
    have hlead : (10 : ℚ) ^ ((count : ℤ) - 1) ≤ below := by
      rw [← Nat.cast_one, ← Nat.cast_sub hcount, zpow_natCast]
      exact_mod_cast hlead
    calc (m * 10 ^ k : ℚ)
        _ ≤ 10 ^ (count : ℤ) * 10 ^ k := by gcongr
        _ = 10 ^ (count + k) := (zpow_add₀ (by norm_num) ..).symm
        _ ≤ 10 ^ ((count : ℤ) - 1 + last) := zpow_le_zpow_right₀ (by norm_num) (by omega)
        _ = 10 ^ ((count : ℤ) - 1) * 10 ^ last := zpow_add₀ (by norm_num) ..
        _ ≤ below * 10 ^ last := by gcongr

/-- With a decimal of that many digits the neighbour on its side reads back. -/
theorem neighbour_reads {m : ℕ} {k : ℤ} (hm : m < 10 ^ count)
    (hreads : bitsNearest (m * 10 ^ k) = bits) :
    (m * 10 ^ k : ℚ) ≤
        cutDigits (unitsOfBits bits) count * 10 ^ lastPlace (unitsOfBits bits) count ∧
      bitsNearest (cutDigits (unitsOfBits bits) count *
        10 ^ lastPlace (unitsOfBits bits) count) = bits ∨
    ((cutDigits (unitsOfBits bits) count + 1 : ℕ) *
        10 ^ lastPlace (unitsOfBits bits) count : ℚ) ≤ m * 10 ^ k ∧
      bitsNearest ((cutDigits (unitsOfBits bits) count + 1 : ℕ) *
        10 ^ lastPlace (unitsOfBits bits) count) = bits := by
  obtain ⟨hlow, hhigh⟩ := cutDigits_bounds bits count
  have hself := bitsNearest_valueOfBits bits
  refine (le_or_le_of_lt (k := k) hpos hfin hm).imp (fun hle ↦ ⟨hle, ?_⟩) (fun hle ↦ ⟨hle, ?_⟩)
  · refine Nat.le_antisymm ((bitsNearest_mono (by positivity) hlow).trans_eq hself) ?_
    exact hreads.symm.trans_le (bitsNearest_mono (by positivity) hle)
  · refine Nat.le_antisymm ((bitsNearest_mono (by positivity) hle).trans_eq hreads) ?_
    exact hself.symm.trans_le (bitsNearest_mono (valueOfBits_pos hpos).le hhigh.le)

/-- If neither neighbour reads back, no decimal with that many digits does. -/
theorem not_bitsNearest_of_neighbours (h : candidate? bits (unitsOfBits bits) count = none) {m : ℕ}
    {k : ℤ} (hm : m < 10 ^ count) : bitsNearest (m * 10 ^ k) ≠ bits := by
  intro hreads
  obtain ⟨hbelow, habove⟩ := candidate?_eq_none h
  rcases neighbour_reads hpos hfin hm hreads with ⟨-, hreads⟩ | ⟨-, hreads⟩
  · exact hbelow hreads
  · exact habove hreads

omit hpos hfin in
/-- The rounded digits are the closer neighbour. -/
theorem roundedDigits_closest (bits count n : ℕ) :
    |roundedDigits (unitsOfBits bits) count * 10 ^ lastPlace (unitsOfBits bits) count -
        valueOfBits bits| ≤
      |(n * 10 ^ lastPlace (unitsOfBits bits) count : ℚ) - valueOfBits bits| := by
  have hround := abs_divHalfEven_sub_le
    (scaleTen (unitsOfBits bits) unitsInOne (-lastPlace (unitsOfBits bits) count)).1
    (scaleTen_pos (unitsOfBits bits) unitsInOne_pos (-lastPlace (unitsOfBits bits) count))
  rw [scaled_lastPlace, ← roundedDigits] at hround
  have hpow : (0 : ℚ) < 10 ^ lastPlace (unitsOfBits bits) count := by positivity
  generalize lastPlace (unitsOfBits bits) count = last at *
  have hscale (i : ℕ) : |(i * 10 ^ last : ℚ) - valueOfBits bits| =
      |(i : ℚ) - valueOfBits bits / 10 ^ last| * 10 ^ last := by
    rw [← abs_of_pos hpow, ← abs_mul, abs_of_pos hpow, sub_mul, div_mul_cancel₀ _ hpow.ne']
  rw [hscale, hscale]
  exact mul_le_mul_of_nonneg_right (closest_of_le_half hround n) hpow.le

/-- Decimals of that many digits lie beyond a neighbour. -/
theorem exists_neighbour_closer {m : ℕ} {k : ℤ} (hm : m < 10 ^ count) :
    ∃ n : ℕ, |(n * 10 ^ lastPlace (unitsOfBits bits) count : ℚ) - valueOfBits bits| ≤
      |(m * 10 ^ k : ℚ) - valueOfBits bits| := by
  obtain ⟨hlow, hhigh⟩ := cutDigits_bounds bits count
  rcases le_or_le_of_lt (k := k) hpos hfin hm with hle | hle
  · exact ⟨_, Set.abs_sub_left_of_mem_uIcc (Set.mem_uIcc.mpr (.inr ⟨hle, hlow⟩))⟩
  · exact ⟨_, Set.abs_sub_left_of_mem_uIcc (Set.mem_uIcc.mpr (.inl ⟨hhigh.le, hle⟩))⟩

/-- No decimal of that many digits is closer than the rounded one. -/
theorem roundedDigits_closest_decimal {m : ℕ} {k : ℤ} (hm : m < 10 ^ count) :
    |roundedDigits (unitsOfBits bits) count * 10 ^ lastPlace (unitsOfBits bits) count -
        valueOfBits bits| ≤ |(m * 10 ^ k : ℚ) - valueOfBits bits| := by
  obtain ⟨n, hn⟩ := exists_neighbour_closer (k := k) hpos hfin hm
  exact (roundedDigits_closest bits count n).trans hn

/-- No decimal of that many digits that reads back is closer than the candidate: if the candidate is
not the rounded one, those on the other side do not read back. -/
theorem candidate?_closest {lead : Leading}
    (h : candidate? bits (unitsOfBits bits) count = some lead) {m : ℕ} {k : ℤ} (hm : m < 10 ^ count)
    (hreads : bitsNearest (m * 10 ^ k) = bits) :
    |lead.value count - valueOfBits bits| ≤ |(m * 10 ^ k : ℚ) - valueOfBits bits| := by
  have hcases := roundedDigits_cases (unitsOfBits bits) count
  have hvalue := value_mk (unitsOfBits bits) count
  have hrounded := roundedDigits_closest_decimal (k := k) hpos hfin hm
  rw [candidate?_eq] at h
  generalize exponent (unitsOfBits bits) unitsInOne = first at *
  split at h
  · obtain rfl := Option.some.inj h
    rw [hvalue]
    exact hrounded
  next hnot =>
  split at h
  · obtain rfl := Option.some.inj h
    obtain ⟨hlow, hhigh⟩ := cutDigits_bounds bits count
    rw [readsBack_iff] at hnot
    rw [hvalue]
    have hside := neighbour_reads hpos hfin hm hreads
    rcases hcases with ⟨hr, ho⟩ | ⟨hr, ho⟩
    · obtain ⟨hle, -⟩ := hside.resolve_left fun hbelow ↦ hnot (hr ▸ hbelow.2)
      exact ho ▸ Set.abs_sub_left_of_mem_uIcc (Set.mem_uIcc.mpr (.inl ⟨hhigh.le, hle⟩))
    · obtain ⟨hle, -⟩ := hside.resolve_right fun habove ↦ hnot (hr ▸ habove.2)
      exact ho ▸ Set.abs_sub_left_of_mem_uIcc (Set.mem_uIcc.mpr (.inr ⟨hle, hlow⟩))
  · cases h

/-- The grid of seventeen digits is so fine that the nearer neighbour reads back: it is off by half
a step at most, which is less than one part in `2 ^ 54`. -/
theorem bitsNearest_roundedDigits :
    bitsNearest (roundedDigits (unitsOfBits bits) 17 * 10 ^ lastPlace (unitsOfBits bits) 17) =
      bits := by
  have hlead := (exponent_bounds_bits hpos hfin).1
  have hround := abs_divHalfEven_sub_le
    (scaleTen (unitsOfBits bits) unitsInOne (-lastPlace (unitsOfBits bits) 17)).1
    (scaleTen_pos (unitsOfBits bits) unitsInOne_pos (-lastPlace (unitsOfBits bits) 17))
  rw [scaled_lastPlace, ← roundedDigits] at hround
  generalize roundedDigits (unitsOfBits bits) 17 = rounded at *
  have hgrid : exponent (unitsOfBits bits) unitsInOne = 16 + lastPlace (unitsOfBits bits) 17 := by
    rw [lastPlace]
    generalize exponent (unitsOfBits bits) unitsInOne = first
    omega
  rw [hgrid, zpow_add₀ (by norm_num)] at hlead
  generalize lastPlace (unitsOfBits bits) 17 = last at *
  have hpow : (0 : ℚ) < 10 ^ last := by positivity
  have hdist : |valueOfBits bits - rounded * 10 ^ last| =
      |(rounded : ℚ) - valueOfBits bits / 10 ^ last| * 10 ^ last := by
    rw [← abs_of_pos hpow, ← abs_mul, abs_of_pos hpow, sub_mul, div_mul_cancel₀ _ hpow.ne',
      abs_sub_comm]
  refine bitsNearest_eq_of_close (by positivity) ?_
  calc 2 ^ 54 * |valueOfBits bits - rounded * 10 ^ last|
      _ ≤ 2 ^ 54 * (1 / 2 * 10 ^ last) := by
        rw [hdist]
        gcongr
      _ < (10 : ℚ) ^ (16 : ℤ) * 10 ^ last := by
        rw [← mul_assoc, mul_lt_mul_iff_of_pos_right hpow]
        norm_num
      _ ≤ valueOfBits bits := hlead

end Grid

/-! ## The shortest decimal -/

/-- A number of digits that read back to a magnitude, where fewer digits do not, and that are
closest to it. -/
structure IsShortest (bits count : ℕ) (lead : Leading) : Prop where
  pos : 1 ≤ count
  le : count ≤ 17
  /-- There are not more digits than that. -/
  significand_le : lead.significand ≤ 10 ^ count
  reads : bitsNearest (lead.value count) = bits
  /-- A decimal that reads back has as many digits. -/
  minimal : ∀ (m : ℕ) (k : ℤ) (n : ℕ), m < 10 ^ n → bitsNearest (m * 10 ^ k) = bits → count ≤ n
  /-- Of those with as many digits no other one is closer. -/
  closest : ∀ (m : ℕ) (k : ℤ), m < 10 ^ count → bitsNearest (m * 10 ^ k) = bits →
    |lead.value count - valueOfBits bits| ≤ |(m * 10 ^ k : ℚ) - valueOfBits bits|

section Search

variable {bits count : ℕ} (hpos : 0 < bits) (hfin : bits < infinityBits)

/-- The leading digits are the rounded ones, carried where they have become too many. -/
theorem leading_eq (units count : ℕ) : leading count units unitsInOne =
    normalized count ⟨roundedDigits units count, exponent units unitsInOne⟩ := by
  have hplace : (count : ℤ) - 1 - exponent units unitsInOne = -lastPlace units count := by
    rw [lastPlace]
    generalize exponent units unitsInOne = first
    omega
  rw [roundedDigits, ← hplace]
  generalize unitsInOne = one
  rfl

include hpos hfin

/-- The first candidate is a shortest one, if fewer digits than the search starts with do not read
back. -/
theorem isShortest_firstFrom {fuel : ℕ} (hcount : 1 ≤ count) (hfuel : fuel + count = 17)
    (hminimal : ∀ (m : ℕ) (k : ℤ) (n : ℕ), m < 10 ^ n → bitsNearest (m * 10 ^ k) = bits →
      count ≤ n) {result : ℕ × Leading}
    (h : firstFrom (candidate? bits (unitsOfBits bits))
      (leading · (unitsOfBits bits) unitsInOne) fuel count = result) :
    IsShortest bits result.1 result.2 := by
  subst h
  induction fuel generalizing count with
  | zero =>
    obtain rfl : count = 17 := by omega
    have hreads := bitsNearest_roundedDigits hpos hfin
    have hlt := cutDigits_lt hpos hfin 17
    have hcases := roundedDigits_cases (unitsOfBits bits) 17
    rw [← value_mk] at hreads
    rw [firstFrom]
    dsimp only
    rw [leading_eq]
    refine ⟨hcount, le_rfl, (normalized_lt hcount ?_).le, ?_, hminimal, fun m k hm _ ↦ ?_⟩
    · dsimp only
      omega
    · rwa [normalized_value hcount]
    · rw [normalized_value hcount, value_mk]
      exact roundedDigits_closest_decimal hpos hfin hm
  | succ fuel ih =>
    rw [firstFrom]
    split
    · next lead hlead =>
      obtain ⟨hreads, hle⟩ := candidate?_eq_some hlead
      exact ⟨hcount, by omega, hle.trans (cutDigits_lt hpos hfin count), hreads, hminimal,
        fun m k ↦ candidate?_closest hpos hfin hlead⟩
    · next hnone =>
      refine ih (by omega) (by omega) fun m k n hm hreads ↦ ?_
      refine lt_of_le_of_ne (hminimal m k n hm hreads) ?_
      rintro rfl
      exact not_bitsNearest_of_neighbours hpos hfin hnone hm hreads

/-- The digits of a positive finite double are shortest ones. -/
theorem isShortest_shortest : IsShortest bits (shortest bits).1 (shortest bits).2 := by
  refine isShortest_firstFrom hpos hfin le_rfl rfl (fun m k n hm hreads ↦ ?_) rfl
  by_contra hn
  obtain rfl : n = 0 := by omega
  obtain rfl : m = 0 := by omega
  rw [Nat.cast_zero, zero_mul, bitsNearest_zero] at hreads
  omega

end Search

end ScorePortfolio.Decimal

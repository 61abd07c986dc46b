import ScorePortfolio.Proofs.Number.Totals
import ScorePortfolio.Proofs.Portfolio.NonFiniteScores

/-!
# When scores give weights

Scores that are all finite give weights if one of them is positive and the exact sum of the positive
ones rounds to a double.  Beyond the doubles there is no total, although each score is finite and so
would be its share; nothing else can go wrong, as no positive total is rounded to zero.
-/

namespace ScorePortfolio

open Binary

variable {scores : List (Asset × Float)}

/-! ## Finite scores -/

/-- A negative score counts as zero, counted in the least unit. -/
theorem units_longOnly {x : Float} (h : x.isFinite = true) :
    units (longOnly x) = max 0 (units x) := by
  rw [longOnly]
  split
  · next hpos => rw [max_eq_right ((zero_lt_iff h).mp hpos).le]
  · next hpos => rw [units_zero, max_eq_left (not_lt.mp (mt (zero_lt_iff h).mpr hpos))]

/-- The exact sum of the positive scores. -/
def positiveTotal (scores : List (Asset × Float)) : ℚ :=
  (scores.map fun e ↦ max 0 (toRat e.2)).sum

/-- The same in units. -/
def positiveUnits (scores : List (Asset × Float)) : ℤ :=
  (scores.map fun e ↦ max 0 (units e.2)).sum

/-- The positive total is a whole number of the least units. -/
theorem positiveTotal_eq (scores : List (Asset × Float)) :
    positiveTotal scores = positiveUnits scores / unitsInOne := by
  rw [positiveTotal, positiveUnits]
  induction scores with
  | nil => simp
  | cons e scores ih =>
    have hmax : max 0 (toRat e.2) = (max 0 (units e.2) : ℤ) / unitsInOne := by
      rw [toRat_eq, Int.cast_max, Int.cast_zero, ← max_div_div_right unitsInOne_cast_pos.le,
        zero_div]
    rw [List.map_cons, List.sum_cons, List.map_cons, List.sum_cons, ih, hmax, Int.cast_add, add_div]

theorem le_positiveUnits {e : Asset × Float} (h : e ∈ scores) :
    max 0 (units e.2) ≤ positiveUnits scores := by
  have hmem := List.mem_map_of_mem (f := fun e ↦ max 0 (units e.2)) h
  refine List.single_le_sum (fun z hz ↦ ?_) _ hmem
  obtain ⟨e, -, rfl⟩ := List.mem_map.mp hz
  exact le_max_left _ _

theorem positiveUnits_nonneg (scores : List (Asset × Float)) : 0 ≤ positiveUnits scores := by
  refine List.sum_nonneg fun z hz ↦ ?_
  obtain ⟨e, -, rfl⟩ := List.mem_map.mp hz
  exact le_max_left _ _

/-- The positive total is positive exactly if some score is. -/
theorem positiveUnits_pos : 0 < positiveUnits scores ↔ ∃ e ∈ scores, 0 < units e.2 := by
  constructor
  · intro h
    by_contra hnone
    push Not at hnone
    refine h.ne' (List.sum_eq_zero fun z hz ↦ ?_)
    obtain ⟨e, he, rfl⟩ := List.mem_map.mp hz
    exact max_eq_left (hnone e he)
  · rintro ⟨e, he, hpos⟩
    exact (lt_max_of_lt_right hpos).trans_le (le_positiveUnits he)

/-- The total of long-only scores is the rounding of their exact total, or an overflow. -/
theorem total_longOnly (h : ∀ e ∈ scores, e.2.isFinite = true) :
    Quantity.total (scores.map fun e ↦ longOnly e.2) =
      if overflows (positiveUnits scores) then .error .overflow
      else .ok (ofUnits (positiveUnits scores)) := by
  have hunits : ((scores.map fun e ↦ longOnly e.2).map units).sum = positiveUnits scores := by
    rw [positiveUnits, List.map_map]
    exact congrArg List.sum (List.map_congr_left fun e he ↦ units_longOnly (h e he))
  rw [← hunits]
  exact total_eq (longOnly_terms fun e he ↦ nonFinite?_eq_none.mpr (h e he))

/-- A total overflows exactly from the least number on that rounds beyond the largest double. -/
theorem beyondRange_le :
    beyondRange ≤ positiveTotal scores ↔ overflows (positiveUnits scores) = true := by
  rw [positiveTotal_eq, le_div_iff₀ unitsInOne_cast_pos, beyondRange_mul, overflows_iff,
    ← Int.cast_natCast, Int.cast_le]
  have hnonneg := positiveUnits_nonneg scores
  omega

theorem ofUnits_eq_zero {n : ℤ} : Quantity.eq (ofUnits n) Quantity.zero = true ↔ n = 0 := by
  rw [eq_zero_iff, ofUnits, magnitudeBits_ofBits, Nat.min_eq_zero_iff,
    or_iff_left (by decide), nearestBits_one_eq_zero, Int.natAbs_eq_zero]

/-- Finite scores are divided by the rounding of their exact positive total, unless it overflows or
is zero. -/
theorem normalize_of_finite (h : ∀ e ∈ scores, e.2.isFinite = true) : normalize scores =
    if overflows (positiveUnits scores) then .error (.total .overflow)
    else if positiveUnits scores = 0 then .error .degenerate
    else .ok (scores.map fun e ↦ (e.1, longOnly e.2 / ofUnits (positiveUnits scores))) := by
  have hzeroed : longOnlyScores scores = .ok (scores.map fun e ↦ (e.1, longOnly e.2)) :=
    longOnlyScores_eq_ok.mpr ⟨fun e he ↦ nonFinite?_eq_none.mpr (h e he), rfl⟩
  have hvalues : (scores.map fun e ↦ (e.1, longOnly e.2)).map (·.2) =
      scores.map fun e ↦ longOnly e.2 := List.map_map
  rw [normalize, hzeroed, ok_bind, hvalues, total_longOnly h]
  split
  · rfl
  · show (if Quantity.eq (ofUnits (positiveUnits scores)) Quantity.zero = true then _ else _) = _
    simp only [ofUnits_eq_zero]
    split
    · rfl
    · exact congrArg Except.ok List.map_map

/-! ## All scores -/

/-- A score that is infinite or not a number is reported, whatever the others are. -/
theorem exists_nonFinite_of_normalize (h : ∃ e ∈ scores, ¬ e.2.isFinite = true) :
    ∃ asset kind, normalize scores = .error (.nonFinite asset kind) := by
  cases hzeroed : longOnlyScores scores with
  | ok zeroed =>
    obtain ⟨e, he, hfinite⟩ := h
    exact absurd (nonFinite?_eq_none.mp ((longOnlyScores_eq_ok.mp hzeroed).1 e he)) hfinite
  | error cause =>
    obtain ⟨-, e, -, -, -, herror⟩ := mapM_eq_error hzeroed
    obtain ⟨kind, -, rfl⟩ := longOnlyScore_eq_error.mp herror
    exact ⟨e.1, kind, bind_eq_error.mpr (.inl hzeroed)⟩

theorem positiveUnits_ne_zero : positiveUnits scores ≠ 0 ↔ ∃ e ∈ scores, 0 < toRat e.2 := by
  simp only [toRat_pos, ← positiveUnits_pos]
  exact (positiveUnits_nonneg scores).lt_iff_ne'.symm

/-- Scores that are infinite or not a number are one failure, no positive score among finite ones is
another, and a sum of the positive ones beyond the doubles is the third.  All other scores give one
weight for each asset. -/
theorem normalize_outcome (scores : List (Asset × Float)) :
    ((∃ asset kind, normalize scores = .error (.nonFinite asset kind)) ↔
      ∃ e ∈ scores, ¬ e.2.isFinite = true) ∧
    (normalize scores = .error .degenerate ↔
      (∀ e ∈ scores, e.2.isFinite = true) ∧ ∀ e ∈ scores, toRat e.2 ≤ 0) ∧
    (∀ cause, normalize scores = .error (.total cause) ↔
      cause = .overflow ∧ (∀ e ∈ scores, e.2.isFinite = true) ∧
        beyondRange ≤ positiveTotal scores) ∧
    ((∃ weights, normalize scores = .ok weights ∧ weights.map (·.1) = scores.map (·.1)) ↔
      (∀ e ∈ scores, e.2.isFinite = true) ∧ (∃ e ∈ scores, 0 < toRat e.2) ∧
        positiveTotal scores < beyondRange) := by
  by_cases hsome : ∃ e ∈ scores, ¬ e.2.isFinite = true
  · have hnot : ¬ ∀ e ∈ scores, e.2.isFinite = true := by
      push Not
      exact hsome
    obtain ⟨asset, kind, herror⟩ := exists_nonFinite_of_normalize hsome
    refine ⟨iff_of_true ⟨asset, kind, herror⟩ hsome, iff_of_false ?_ fun h ↦ hnot h.1,
      fun cause ↦ iff_of_false ?_ fun h ↦ hnot h.2.1, iff_of_false ?_ fun h ↦ hnot h.1⟩ <;>
    simp [herror]
  · have hfinite : ∀ e ∈ scores, e.2.isFinite = true := by
      push Not at hsome
      exact hsome
    have hdegenerate : (∀ e ∈ scores, toRat e.2 ≤ 0) ↔ positiveUnits scores = 0 := by
      rw [← not_iff_not, ← ne_eq (positiveUnits scores), positiveUnits_ne_zero]
      push Not
      rfl
    rw [← not_le, beyondRange_le, ← positiveUnits_ne_zero, hdegenerate, iff_false_intro hsome,
      normalize_of_finite hfinite]
    simp only [and_iff_right hfinite]
    split_ifs with hover hzero
    · have hne : positiveUnits scores ≠ 0 := by
        intro hzero
        rw [hzero, overflows_zero] at hover
        cases hover
      simpa [hover, hne] using fun cause ↦ eq_comm
    · simpa [hzero] using overflows_zero
    · simp [hover, hzero]

/-- Two scores of which each is a double and the sum is none. -/
def hugeScores : List (Asset × Float) := [(⟨"A"⟩, 1e308), (⟨"B"⟩, 1e308)]

/-- Finite scores, one of them positive, need not have weights. -/
theorem exists_scores_beyondRange : ¬ ∀ scores : List (Asset × Float),
    (∀ e ∈ scores, e.2.isFinite = true) → (∃ e ∈ scores, 0 < toRat e.2) →
      ∃ weights, normalize scores = .ok weights := by
  intro h
  have hfinite : ∀ e ∈ hugeScores, e.2.isFinite = true := by decide +kernel
  have hpos : ∃ e ∈ hugeScores, 0 < toRat e.2 := by decide +kernel
  have hover : normalize hugeScores = .error (.total .overflow) := by decide +kernel
  obtain ⟨weights, hweights⟩ := h hugeScores hfinite hpos
  exact nomatch hover.symm.trans hweights

end ScorePortfolio

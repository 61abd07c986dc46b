import ScorePortfolio.Proofs.Number.Sums
import ScorePortfolio.Proofs.Portfolio.Normalization
import ScorePortfolio.Proofs.Portfolio.Weights

/-!
# Shares of scores

The total of scores that are not negative is no smaller than any of them, also after it has been
rounded, so a share of it lies between zero and one; and it depends on the scores alone, not on
their order, since the sum is exact until it is rounded once.  What rounding takes away is that the
shares sum to one, and that a common factor of the scores has no effect: that is so in exact
arithmetic.
-/

namespace ScorePortfolio

open Binary

/-! ## The share of a score -/

section Share

variable {x total : Float} {scores : List (Asset × Float)}

/-- The bits of the share that a finite score has in a total. -/
def shareBits (total x : Float) : ℕ :=
  nearestBits (magnitude (longOnly x) * unitsInOne) (magnitude total)

theorem natCast_magnitude_longOnly (hx : x.isFinite = true) :
    (magnitude (longOnly x) : ℤ) = max 0 (units x) := by
  have habs : (units (longOnly x)).natAbs = magnitude (longOnly x) := natAbs_signedUnits _ _
  have hpos := (longOnly_spec hx).2
  rw [← units_longOnly hx]
  omega

theorem isNegative_longOnly (hx : x.isFinite = true) : isNegative (longOnly x) = false := by
  rw [longOnly]
  split
  · next hpos =>
    have hunits : ¬ units x ≤ 0 := ((zero_lt_iff hx).mp hpos).not_ge
    exact Bool.eq_false_iff.mpr (mt units_nonpos hunits)
  · decide

/-- The total that the shares of finite scores are taken of. -/
structure IsTotal (scores : List (Asset × Float)) (total : Float) : Prop where
  /-- The scores are finite. -/
  finite : ∀ {asset : Asset} {x : Float}, (asset, x) ∈ scores → x.isFinite = true
  /-- So is the total. -/
  range : total.isFinite = true
  /-- The total is not negative. -/
  sign : isNegative total = false
  /-- It is not zero. -/
  ne_zero : Quantity.eq total Quantity.zero = false
  /-- No score that counts is greater. -/
  le : ∀ {asset : Asset} {x : Float}, (asset, x) ∈ scores →
    magnitude (longOnly x) ≤ magnitude total

/-- Weights are the long-only scores over their total. -/
theorem exists_isTotal {weights : List (Asset × Float)} (h : normalize scores = .ok weights) :
    ∃ total, IsTotal scores total ∧
      weights = scores.map fun e ↦ (e.1, longOnly e.2 / total) := by
  obtain ⟨hscores, total, htotal, hne, rfl⟩ := normalize_eq_ok.mp h
  have hterms := longOnly_terms hscores
  obtain ⟨hrange, hle⟩ := Binary.le_total hterms htotal
  refine ⟨total, ⟨fun {asset x} hx ↦ ?_, hrange, isNegative_total hterms htotal, hne,
    fun {asset x} hx ↦ ?_⟩, rfl⟩
  · have hnone : Quantity.nonFinite? x = none := hscores (asset, x) hx
    exact nonFinite?_eq_none.mp hnone
  · have hmem : longOnly x ∈ scores.map fun e ↦ longOnly e.2 :=
      List.mem_map.mpr ⟨(asset, x), hx, rfl⟩
    exact hle _ hmem

namespace IsTotal

variable (h : IsTotal scores total) {asset asset' : Asset} {y : Float}

include h

theorem pos : 0 < magnitudeBits total := magnitudeBits_pos h.ne_zero

/-- A share is at most one. -/
theorem shareBits_le (hx : (asset, x) ∈ scores) : shareBits total x ≤ oneBits := by
  rw [← nearestBits_unitsInOne]
  refine nearestBits_mono (unitsOfBits_pos h.pos) one_pos ?_
  rw [Nat.mul_one, Nat.mul_comm]
  exact Nat.mul_le_mul_left _ (h.le hx)

/-- A larger score has no smaller share. -/
theorem shareBits_mono (hx : (asset, x) ∈ scores) (hy : (asset', y) ∈ scores)
    (hle : toRat x ≤ toRat y) : shareBits total x ≤ shareBits total y := by
  have hmax : max 0 (units x) ≤ max 0 (units y) := max_le_max_left 0 (toRat_le_toRat.mp hle)
  rw [← natCast_magnitude_longOnly (h.finite hx), ← natCast_magnitude_longOnly (h.finite hy),
    Int.ofNat_le] at hmax
  exact nearestBits_mono (unitsOfBits_pos h.pos) (unitsOfBits_pos h.pos)
    (Nat.mul_le_mul_right _ (Nat.mul_le_mul_right _ hmax))

/-- A weight is the rounding of its share. -/
theorem units_share (hx : (asset, x) ∈ scores) :
    units (longOnly x / total) = unitsOfBits (shareBits total x) := by
  have hbits : shareBits total x ≤ infinityBits := (h.shareBits_le hx).trans oneBits_lt.le
  rw [div_eq (longOnly_spec (h.finite hx)).1 h.range h.pos,
    isNegative_longOnly (h.finite hx), h.sign, units_eq, isNegative_ofBits, magnitudeBits_ofBits]
  exact congrArg (fun bits ↦ (unitsOfBits bits : ℤ)) (Nat.min_eq_left hbits)

/-- A weight is between zero and one. -/
theorem share_mem_unit (hx : (asset, x) ∈ scores) :
    0 ≤ toRat (longOnly x / total) ∧ toRat (longOnly x / total) ≤ 1 := by
  rw [toRat_nonneg, toRat_le_one, h.units_share hx, ← unitsOfBits_oneBits, Int.ofNat_le,
    unitsOfBits_le_iff]
  exact ⟨Int.natCast_nonneg _, h.shareBits_le hx⟩

/-- A score that is not positive has the weight zero. -/
theorem share_eq_zero (hx : (asset, x) ∈ scores) (hzero : toRat x ≤ 0) :
    longOnly x / total = Quantity.zero := by
  have hunits : ¬ 0 < units x := (toRat_nonpos.mp hzero).not_gt
  rw [longOnly, if_neg (mt (zero_lt_iff (h.finite hx)).mp hunits),
    zero_div_eq h.range h.sign h.ne_zero]

theorem share_mono (hx : (asset, x) ∈ scores) (hy : (asset', y) ∈ scores)
    (hle : toRat x ≤ toRat y) : toRat (longOnly x / total) ≤ toRat (longOnly y / total) := by
  rw [toRat_le_toRat, h.units_share hx, h.units_share hy, Int.ofNat_le, unitsOfBits_le_iff]
  exact h.shareBits_mono hx hy hle

end IsTotal

end Share

/-! ## Long-only weights -/

/-- Weights as a long-only portfolio has them for scores: parts of one, none for a score that is not
positive, and no smaller for a greater score. -/
structure LongOnly (scores weights : List (Asset × Float)) : Prop where
  /-- A weight lies between zero and one. -/
  unit : ∀ e ∈ weights, e.2.isFinite = true ∧ 0 ≤ toRat e.2 ∧ toRat e.2 ≤ 1
  /-- A score that is not positive has no weight. -/
  zero : ∀ asset score, scores.lookup asset = some score → toRat score ≤ 0 →
    weights.lookup asset = some Quantity.zero
  /-- Weights are in the order of the scores. -/
  mono : ∀ asset asset' score score', scores.lookup asset = some score →
    scores.lookup asset' = some score' → toRat score ≤ toRat score' →
      ∃ weight weight', weights.lookup asset = some weight ∧
        weights.lookup asset' = some weight' ∧ toRat weight ≤ toRat weight'

variable {scores weights : List (Asset × Float)}

/-- Normalized weights satisfy all that is asked of long-only weights. -/
theorem longOnly_of_normalize (h : normalize scores = .ok weights) : LongOnly scores weights := by
  have hfinite := isFinite_of_normalize h
  obtain ⟨total, htotal, rfl⟩ := exists_isTotal h
  have hlookup (asset : Asset) (x : Float) (hx : scores.lookup asset = some x) :
      (scores.map fun e ↦ (e.1, longOnly e.2 / total)).lookup asset =
        some (longOnly x / total) := by
    rw [Entries.lookup_map (fun x ↦ longOnly x / total), hx, Option.map_some]
  refine ⟨fun e he ↦ ⟨hfinite e he, ?_⟩, fun asset x hx hzero ↦ ?_,
    fun asset asset' x y hx hy hle ↦ ⟨_, _, hlookup asset x hx, hlookup asset' y hy, ?_⟩⟩
  · obtain ⟨e, hmem, rfl⟩ := List.mem_map.mp he
    exact htotal.share_mem_unit hmem
  · rw [hlookup asset x hx, htotal.share_eq_zero (Entries.mem_of_lookup hx) hzero]
  · exact htotal.share_mono (Entries.mem_of_lookup hx) (Entries.mem_of_lookup hy) hle

/-! ## Other orders -/

theorem positiveUnits_perm {scores' : List (Asset × Float)} (h : scores'.Perm scores) :
    positiveUnits scores' = positiveUnits scores :=
  (h.map _).sum_eq

/-- Scores in another order have the same weights in that order. -/
theorem normalize_perm {scores' : List (Asset × Float)} (hperm : scores'.Perm scores)
    (h : normalize scores = .ok weights) :
    ∃ weights', normalize scores' = .ok weights' ∧ weights'.Perm weights := by
  have hfinite : ∀ e ∈ scores, e.2.isFinite = true := fun e he ↦
    nonFinite?_eq_none.mp ((normalize_eq_ok.mp h).1 e he)
  rw [normalize_of_finite hfinite] at h
  rw [normalize_of_finite fun e he ↦ hfinite e (hperm.mem_iff.mp he), positiveUnits_perm hperm]
  split_ifs at h ⊢
  obtain rfl := Except.ok.inj h
  exact ⟨_, rfl, hperm.map _⟩

theorem Entries.lookup_perm {κ β : Type} [BEq κ] [LawfulBEq κ] {entries entries' : List (κ × β)}
    (h : (entries.map (·.1)).Nodup) (hperm : entries'.Perm entries) (k : κ) :
    entries'.lookup k = entries.lookup k := by
  have h' : (entries'.map (·.1)).Nodup := (hperm.map _).nodup_iff.mpr h
  refine Option.ext fun v ↦ ⟨fun hv ↦ ?_, fun hv ↦ ?_⟩
  · exact lookup_of_mem h (hperm.mem_iff.mp (mem_of_lookup hv))
  · exact lookup_of_mem h' (hperm.mem_iff.mpr (mem_of_lookup hv))

theorem Asset.ascending_sortEntries {β : Type} {entries : List (Asset × β)}
    (h : (entries.map (·.1)).Nodup) : Ascending ((sortEntries entries).map (·.1)) := by
  refine ascending_of_nodup ?_ (((sortEntries_perm entries).map _).nodup_iff.mpr h)
  exact List.pairwise_map.mpr (pairwise_sortEntries entries)

/-- An allocation does not depend on the order of its weights. -/
theorem Allocation.ofWeights_perm {β : Type} {entries entries' : List (Asset × β)}
    (h : (entries.map (·.1)).Nodup) (hperm : entries'.Perm entries) (t : Option Instant) :
    ofWeights t entries' = ofWeights t entries := by
  have h' : (entries'.map (·.1)).Nodup := (hperm.map _).nodup_iff.mpr h
  refine congrArg (mk t) ((Asset.ascending_sortEntries h').ext (Asset.ascending_sortEntries h)
    fun e ↦ ?_)
  rw [(Asset.sortEntries_perm _).mem_iff, (Asset.sortEntries_perm _).mem_iff, hperm.mem_iff]

/-! ## Exact shares -/

/-- On exact numbers, a long-only score is its positive part. -/
theorem longOnly_rat (x : ℚ) : longOnly x = max 0 x := by
  rw [longOnly]
  split
  · next hpos => exact (max_eq_right (of_decide_eq_true hpos : (0 : ℚ) < x).le).symm
  · next hpos =>
    have hle : x ≤ 0 := not_lt.mp fun hlt ↦ hpos (decide_eq_true hlt)
    exact (max_eq_left hle).symm

/-- The exact sum of the positive scores. -/
def exactTotal (scores : List (Asset × ℚ)) : ℚ := (scores.map fun e ↦ max 0 e.2).sum

/-- On exact numbers, weights are the positive parts over their total, which must not be zero. -/
theorem normalize_rat {scores weights : List (Asset × ℚ)} : normalize scores = .ok weights ↔
    exactTotal scores ≠ 0 ∧ weights = scores.map fun e ↦ (e.1, max 0 e.2 / exactTotal scores) := by
  simp only [normalize_eq_ok, Quantity.total_rat, Except.ok.injEq, longOnly_rat, exactTotal,
    ← Bool.not_eq_true, Quantity.eq_rat, Quantity.zero_rat, Quantity.nonFinite?_rat]
  constructor
  · rintro ⟨-, _, rfl, hne, rfl⟩
    exact ⟨hne, rfl⟩
  · rintro ⟨hne, rfl⟩
    exact ⟨fun _ _ ↦ trivial, _, rfl, hne, rfl⟩

/-- A common positive factor of exact scores is in each share and in the total. -/
theorem normalize_mul {scores weights : List (Asset × ℚ)} (h : normalize scores = .ok weights)
    {k : ℚ} (hk : 0 < k) : normalize (scores.map fun e ↦ (e.1, k * e.2)) = .ok weights := by
  obtain ⟨hne, rfl⟩ := normalize_rat.mp h
  have hmax (x : ℚ) : max 0 (k * x) = k * max 0 x := by
    rw [mul_max_of_nonneg _ _ hk.le, mul_zero]
  have htotal : exactTotal (scores.map fun e ↦ (e.1, k * e.2)) = k * exactTotal scores := by
    rw [exactTotal, exactTotal, List.map_map, ← List.sum_map_mul_left]
    simp only [Function.comp_def, hmax]
  refine normalize_rat.mpr ⟨htotal ▸ mul_ne_zero hk.ne' hne, ?_⟩
  rw [htotal, List.map_map]
  simp only [Function.comp_def, hmax, mul_div_mul_left _ _ hk.ne']

/-! ## All together -/

/-- Weights are those of a long-only portfolio, whatever the order of the scores, which neither a
weight nor an allocation made of the weights depends on.  In exact arithmetic they are proportional
to the positive scores and sum to one, and a common positive factor of the scores has no effect. -/
theorem normalize_longOnly {scores weights : List (Asset × Float)}
    (hassets : (scores.map (·.1)).Nodup) (h : normalize scores = .ok weights) :
    LongOnly scores weights ∧
    (∀ scores' : List (Asset × Float), scores'.Perm scores →
      ∃ weights', normalize scores' = .ok weights' ∧
        (∀ asset, weights'.lookup asset = weights.lookup asset) ∧
        ∀ t, Allocation.ofWeights t weights' = .ofWeights t weights) ∧
    ∀ exact shares : List (Asset × ℚ), normalize exact = .ok shares →
      (shares.map (·.2)).sum = 1 ∧
      (shares = exact.map fun e ↦ (e.1, max 0 e.2 / exactTotal exact)) ∧
      ∀ k : ℚ, 0 < k → normalize (exact.map fun e ↦ (e.1, k * e.2)) = .ok shares := by
  refine ⟨longOnly_of_normalize h, fun scores' hperm ↦ ?_, fun exact shares hexact ↦
    ⟨sum_of_normalize hexact, (normalize_rat.mp hexact).2, fun k hk ↦ normalize_mul hexact hk⟩⟩
  obtain ⟨weights', hweights', hperm'⟩ := normalize_perm hperm h
  have hkeys : (weights.map (·.1)).Nodup := by
    rw [assets_of_normalize h]
    exact hassets
  exact ⟨weights', hweights', Entries.lookup_perm hkeys hperm',
    Allocation.ofWeights_perm hkeys hperm'⟩

/-- Scores of which two count. -/
def threeScores : List (Asset × Float) := [(⟨"A"⟩, 2), (⟨"B"⟩, -1), (⟨"C"⟩, 2)]

/-- Their weights. -/
def threeWeights : List (Asset × Float) := [(⟨"A"⟩, 0.5), (⟨"B"⟩, 0), (⟨"C"⟩, 0.5)]

theorem threeScores_longOnly : (threeScores.map (·.1)).Nodup ∧
    normalize threeScores = .ok threeWeights ∧ LongOnly threeScores threeWeights ∧
    ∃ weights', normalize threeScores.reverse = .ok weights' ∧
      (∀ asset, weights'.lookup asset = threeWeights.lookup asset) ∧
      ∀ t, Allocation.ofWeights t weights' = .ofWeights t threeWeights := by
  have hassets : (threeScores.map (·.1)).Nodup := by decide
  have hweights : normalize threeScores = .ok threeWeights := by decide +kernel
  obtain ⟨hlong, hperm, -⟩ := normalize_longOnly hassets hweights
  exact ⟨hassets, hweights, hlong, hperm _ (List.reverse_perm _)⟩

end ScorePortfolio

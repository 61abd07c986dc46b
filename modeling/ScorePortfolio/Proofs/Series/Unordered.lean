import ScorePortfolio.Proofs.Series.Cells

/-!
# Series of items in any order

Items are put in the order of their dates, and only then is it checked that the dates increase.  So
the order in which they come is of no account: the points of a series, shuffled, give the series
back.  A date that occurs twice is found wherever its two items stand, since they are neighbours
once the items are in order; a missing date is found at the end.
-/

namespace ScorePortfolio

namespace Series

variable {α : Type} {l : List (Option Instant × α)} {s : Series α}

/-- The points of a series in any order give the series back. -/
theorem IsIncreasing.ofItems_perm (h : s.IsIncreasing) (hperm : l.Perm s.items) :
    ofItems l = .ok s := by
  have hdates : (l.map (·.1)).Nodup := (hperm.map _).nodup_iff.mpr h.dates_nodup
  refine ofItems_eq_ok.mpr ⟨h, sortItems_eq hdates hperm.symm ?_⟩
  rw [items, List.pairwise_map]
  exact (isIncreasing_iff.mp h).imp fun hlt ↦ decide_eq_true (Instant.le_of_lt hlt)

/-- A series that is made of items has each of them, and nothing else. -/
theorem perm_of_ofItems (h : ofItems l = .ok s) : s.IsIncreasing ∧ s.items.Perm l := by
  obtain ⟨hinc, hsorted⟩ := ofItems_eq_ok.mp h
  exact ⟨hinc, hsorted ▸ sortItems_perm l⟩

/-- Items have as many dates as values, so there is one reason only to refuse them. -/
theorem ofItems_eq_error {e : SeriesError} (h : ofItems l = .error e) : e = .notIncreasing := by
  rw [ofItems, ofColumns, if_neg (by simp)] at h
  split at h
  · exact (Except.error.inj h).symm
  split at h
  · cases h
  · exact (Except.error.inj h).symm

/-- The points of a series in any order give the series back.  Items make a series if and only if
their dates differ and none is missing; it then consists of the items, in the order of their dates.
Otherwise they are refused because the dates do not increase. -/
theorem ofItems_outcome :
    (∀ s : Series α, s.IsIncreasing → ∀ items : List (Option Instant × α), items.Perm s.items →
      ofItems items = .ok s) ∧
    ∀ items : List (Option Instant × α),
      ((∃ s, ofItems items = .ok s ∧ s.IsIncreasing ∧ s.items.Perm items) ↔
        (items.map (·.1)).Nodup ∧ none ∉ items.map (·.1)) ∧
      (∀ e, ofItems items = .error e ↔
        ¬ ((items.map (·.1)).Nodup ∧ none ∉ items.map (·.1)) ∧ e = .notIncreasing) ∧
      SeriesError.notIncreasing.isDivision = false := by
  refine ⟨fun s hs items hperm ↦ hs.ofItems_perm hperm, fun items ↦ ?_⟩
  have hdates {s : Series α} (h : ofItems items = .ok s) :
      (items.map (·.1)).Nodup ∧ none ∉ items.map (·.1) := by
    obtain ⟨hinc, hperm⟩ := perm_of_ofItems h
    refine ⟨(hperm.map _).nodup_iff.mp hinc.dates_nodup, fun hnone ↦ ?_⟩
    obtain ⟨⟨date, x⟩, hmem, rfl⟩ := List.mem_map.mp hnone
    obtain ⟨t, ht, -⟩ := mem_items.mp (hperm.mem_iff.mpr hmem)
    cases ht
  refine ⟨⟨?_, ?_⟩, fun e ↦ ⟨fun h ↦ ⟨?_, ofItems_eq_error h⟩, ?_⟩, rfl⟩
  · rintro ⟨s, hs, -⟩
    exact hdates hs
  · rintro ⟨hnodup, hpresent⟩
    obtain ⟨s, hs⟩ := exists_ofItems hnodup hpresent
    exact ⟨s, hs, perm_of_ofItems hs⟩
  · rintro ⟨hnodup, hpresent⟩
    obtain ⟨s, hs⟩ := exists_ofItems hnodup hpresent
    cases h.symm.trans hs
  · rintro ⟨hnot, rfl⟩
    cases h : ofItems items with
    | ok s => exact absurd (hdates h) hnot
    | error e => rw [ofItems_eq_error h]

/-- Points of which one has no number. -/
def withGap : Series Float := ⟨[(⟨10⟩, 1.0), (⟨20⟩, 0.0 / 0.0), (⟨30⟩, -0.0)]⟩

/-- The last point comes first.  A date of its own more would be accepted; one of those that are
there, with the items of another date between, is not, and neither is a missing one. -/
theorem withGap_ofItems :
    ofItems [(some ⟨30⟩, -0.0), (some ⟨10⟩, 1.0), (some ⟨20⟩, 0.0 / 0.0)] = .ok withGap ∧
      (∃ s : Series Float, ofItems [(some ⟨30⟩, 2.0), (some ⟨10⟩, 1.0)] = .ok s ∧ s.IsIncreasing ∧
        s.items.Perm [(some ⟨30⟩, 2.0), (some ⟨10⟩, 1.0)]) ∧
      ofItems [(some ⟨30⟩, 2.0), (some ⟨10⟩, 1.0), (some ⟨30⟩, 2.0)] = .error .notIncreasing ∧
      ofItems [(none, 2.0), (some ⟨10⟩, 1.0)] = .error .notIncreasing := by
  obtain ⟨hback, hmade⟩ := ofItems_outcome (α := Float)
  refine ⟨hback withGap (increasing_iff.mp rfl) _ ?_, (hmade _).1.mpr (by decide),
    ((hmade _).2.1 _).mpr ⟨by decide, rfl⟩, ((hmade _).2.1 _).mpr ⟨by decide, rfl⟩⟩
  exact (List.perm_append_singleton _ _).symm

end Series

end ScorePortfolio

import ScorePortfolio.Proofs.Market.Universe
import ScorePortfolio.Proofs.Portfolio.SelfFinancing
import ScorePortfolio.Proofs.Series.Rises
import Mathlib.Data.Finset.Card
import Mathlib.Data.Int.Interval

/-!
# Markets with a trend

In a market with a price of every asset at every date, the history of an asset has a point for each
date.  So as of a moment all answers have the same length, whatever the asset: the number of dates
that are not after the moment.  An asset whose prices rise from date to date has values that rise
from point to point.
-/

namespace ScorePortfolio

namespace Table

/-- There are no more dates than moments that an index can hold. -/
theorem IsDated.length_le {α : Type} {T : Table α} (h : T.IsDated) : T.dates.length ≤ 2 ^ 64 := by
  let count (d : Option Instant) : ℤ := (d.map Instant.nanoseconds).getD 0
  have hmem : ∀ d ∈ T.dates.toFinset,
      count d ∈ Finset.Icc Instant.earliest.nanoseconds Instant.latest.nanoseconds := by
    intro d hd
    obtain ⟨t, rfl, hrange⟩ := h.inRange d (List.mem_toFinset.mp hd)
    exact Finset.mem_Icc.mpr hrange
  have hinj : Set.InjOn count T.dates.toFinset := by
    intro d hd d' hd' heq
    obtain ⟨t, rfl, -⟩ := h.inRange d (List.mem_toFinset.mp hd)
    obtain ⟨t', rfl, -⟩ := h.inRange d' (List.mem_toFinset.mp hd')
    exact congrArg some (Instant.eq_iff.mpr heq)
  have hcard := Finset.card_le_card_of_injOn count hmem hinj
  rw [List.toFinset_card_of_nodup h.nodup, Int.card_Icc] at hcard
  exact hcard.trans (by decide)

end Table

namespace Market

/-! ## Prices at all dates -/

/-- Prices of every asset at every date, all of them positive, which no further field takes the
place of. -/
structure IsQuoted (m : Market ℚ) : Prop where
  dated : m.prices.IsDated
  full : m.prices.IsFull
  positive : m.IsPositive
  close : m.fields.lookup closeField = none

/-- The asset is in the universe, and its prices rise from date to date. -/
structure Rises (m : Market ℚ) (asset : Asset) : Prop where
  known : asset ∈ m.assets.map (·.2)
  rise : ∀ s t p q, s < t → m.price? asset s = some p → m.price? asset t = some q → p < q

/-- How many dates there are up to a moment; a missing moment is after all dates. -/
def datesUpTo (m : Market ℚ) (t : Option Instant) : ℕ :=
  m.prices.dates.countP (Instant.missingLastLE · t)

/-- The history of the prices of an asset: a point for each price. -/
structure PricesOf (m : Market ℚ) (asset : Asset) (s : Series ℚ) : Prop where
  history : m.history closeField asset = .ok s
  increasing : s.IsIncreasing
  mem_iff : ∀ t x, (t, x) ∈ s.points ↔ m.price? asset t = some x
  index_perm : (s.index.map some).Perm m.prices.dates

variable {m : Market ℚ} {asset : Asset} {s : Series ℚ} {t : Option Instant}

theorem datesUpTo_le (h : m.IsQuoted) : m.datesUpTo t ≤ 2 ^ 64 :=
  List.countP_le_length.trans h.dated.length_le

/-- A quoted market answers for each of its assets.  The cells of the column are all there, one to a
date, so the sorted items make an increasing series whose points are the prices. -/
theorem IsQuoted.exists_pricesOf (h : m.IsQuoted) (hasset : asset ∈ m.assets.map (·.2)) :
    ∃ s, m.PricesOf asset s := by
  obtain ⟨label, hlabel⟩ := exists_label hasset
  obtain ⟨cells, hcells⟩ := exists_cells_of_lookup hlabel
  obtain ⟨label', hcolumn⟩ := Table.mem_columns_of_cells? hcells
  have hdates : (m.prices.dates.zip cells).map (·.1) = m.prices.dates :=
    List.map_fst_zip (h.full _ hcolumn).ge
  have hperm := Series.sortItems_perm (m.prices.dates.zip cells)
  have hsorted : ((Series.sortItems (m.prices.dates.zip cells)).map (·.1)).Perm m.prices.dates :=
    (hperm.map _).trans (.of_eq hdates)
  obtain ⟨s, hs⟩ := Series.exists_ofCells (hsorted.nodup_iff.mpr h.dated.nodup)
    fun d hd ↦ h.dated.inRange d (hsorted.mem_iff.mp hd)
  obtain ⟨hinc, -, hitems⟩ := Series.ofCells_eq_ok.mp hs
  -- exact numbers are all present, so the items of the series are those of the column
  have hpresent (l : List (Option Instant × ℚ)) : Series.present l = l :=
    List.filter_eq_self.mpr fun _ _ ↦ rfl
  have hpoints : s.items.Perm (m.prices.dates.zip cells) := by
    rw [← hitems, hpresent]
    exact (Series.sortItems_perm _).trans hperm
  refine ⟨s, ⟨history_eq_ok.mpr ⟨_, column_eq_ok.mpr ⟨label, m.prices.items?, hlabel, ?_, ?_⟩, hs⟩,
    hinc, fun t x ↦ ?_, ?_⟩⟩
  · rw [items?, h.close]
    rfl
  · rw [Table.items?, hcells, Option.map_some]
  · have hmem : (some t, x) ∈ s.items ↔ (t, x) ∈ s.points := by
      simp [Series.mem_items]
    have hlookup : (m.prices.dates.zip cells).lookup (some t) = some x ↔
        (some t, x) ∈ m.prices.dates.zip cells :=
      ⟨Entries.mem_of_lookup, Entries.lookup_of_mem (Table.dates_zip_nodup h.dated.nodup cells)⟩
    rw [← hmem, hpoints.mem_iff, ← hlookup]
    simp [price?, hlabel, hcells]
  · have hindex := hpoints.map (·.1)
    rw [hdates, Series.items, List.map_map] at hindex
    rwa [Series.index, List.map_map]

namespace PricesOf

variable (h : m.PricesOf asset s)

include h

/-- In a market of positive prices the values of an asset are positive. -/
theorem values_pos (hpos : m.IsPositive) : ∀ x ∈ s.values, 0 < x := by
  intro x hx
  obtain ⟨⟨t, x⟩, hmem, rfl⟩ := List.mem_map.mp hx
  exact hpos.pos_of_price? ((h.mem_iff t x).mp hmem)

/-- The values of an asset that rises go up from point to point. -/
theorem values_rise (hrise : m.Rises asset) : s.values.Pairwise (· < ·) := by
  refine List.pairwise_map.mpr
    ((Series.isIncreasing_iff.mp h.increasing).imp_of_mem ?_)
  rintro ⟨t, x⟩ ⟨u, y⟩ hx hy hlt
  exact hrise.rise t u x y hlt ((h.mem_iff t x).mp hx) ((h.mem_iff u y).mp hy)

/-- Cut at a moment, the prices of an asset are as many as the dates that are not after it, whatever
the asset. -/
theorem length_upTo (t : Option Instant) : (s.upTo t).length = m.datesUpTo t := by
  rw [datesUpTo, ← h.index_perm.countP_eq, List.countP_map]
  cases t with
  | none =>
    rw [Series.upTo, ← Series.length_index, ← List.countP_true]
    rfl
  | some t =>
    rw [Series.length, h.increasing.points_upTo, ← List.countP_eq_length_filter, Series.index,
      List.countP_map]
    rfl

end PricesOf

/-! ## Answers -/

/-- What the market answers about the prices of an asset: positive values, one for each date, which
rise if the asset does. -/
theorem IsQuoted.exists_answer (h : m.IsQuoted) (hasset : asset ∈ m.assets.map (·.2))
    (ht : ∀ u, t = some u → u.InRange) : ∃ s, m.query asset t (some closeField) = .ok s ∧
      s.IsIncreasing ∧ s.length = m.datesUpTo t ∧ (∀ x ∈ s.values, 0 < x) ∧
      (m.Rises asset → s.values.Pairwise (· < ·)) := by
  obtain ⟨s, hs⟩ := h.exists_pricesOf hasset
  have hsub : (s.upTo t).values.Sublist s.values := (s.upTo_prefix t).sublist.map _
  exact ⟨s.upTo t, query_eq_ok (by decide) hs.history ht, hs.increasing.upTo t, hs.length_upTo t,
    fun x hx ↦ hs.values_pos h.positive x (hsub.mem hx),
    fun hrise ↦ (hs.values_rise hrise).sublist hsub⟩

end Market

end ScorePortfolio

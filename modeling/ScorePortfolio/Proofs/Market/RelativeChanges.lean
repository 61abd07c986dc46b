import ScorePortfolio.Proofs.Market.Calendars
import ScorePortfolio.Proofs.Number.Special
import ScorePortfolio.Proofs.Series.Made

/-!
# Two ways to the relative changes of prices

The changes of the prices up to a moment can be computed from these prices.  They can also be had
from the market, which computes all changes of the column, leaves out what is not a number, and cuts
afterwards.  Both pair the same neighbours, since a cut keeps an initial part of the prices; and if
the first way succeeds, then the second one has nothing to leave out.  The first way fails only at a
zero among the prices that a change starts from.
-/

namespace ScorePortfolio

/-- The change from a finite value that is not zero to another finite value is a number. -/
theorem Quantity.not_isMissing_change {x y : Float} (hx : x.isFinite = true)
    (hy : y.isFinite = true) (hzero : ¬ Quantity.eq x Quantity.zero = true) :
    isMissing (change x y) = false := by
  have hpos := Binary.magnitudeBits_pos (Bool.eq_false_iff.mpr hzero)
  rw [Bool.eq_false_iff, ne_eq, isMissing_iff, change,
    Binary.isNaN_sub_of_isFinite Binary.isFinite_one, Binary.div_eq hy hx hpos]
  exact Binary.not_isNaN_ofBits _ _

namespace Series

/-! ## Cuts of changes -/

section Cuts

variable {α : Type} [Quantity α] {s : Series α}

/-- The numbers up to a moment are those of the series up to it. -/
theorem IsIncreasing.numbers_upTo (h : s.IsIncreasing) (t : Option Instant) :
    s.numbers.upTo t = (s.upTo t).numbers := by
  cases t with
  | none => rfl
  | some t =>
    refine eq_of_points ?_
    rw [h.numbers.points_upTo, Series.numbers, Series.numbers, h.points_upTo, List.filter_comm]

/-- The changes up to a moment are those of the series up to it. -/
theorem IsIncreasing.changes_upTo (h : s.IsIncreasing) (t : Option Instant) :
    s.changes.upTo t = (s.upTo t).changes := by
  cases t with
  | none => rfl
  | some t =>
    refine eq_of_points ?_
    rw [h.changes.points_upTo, Series.changes, Series.changes, h.points_upTo,
      steps_filter (h.upTo_first t), List.filter_map]
    rfl

theorem items_changes (s : Series α) : s.changes.items = changesOf s.items := by
  rw [changesOf, items, items, changes, steps_map, List.map_map, List.map_map]
  rfl

end Cuts

/-! ## Changes of a series -/

section Changes

variable {s x : Series Float}

theorem mem_dropLast_iff {β : Type} {l : List β} {a : β} :
    a ∈ l.dropLast ↔ ∃ i, i + 1 < l.length ∧ l[i]? = some a := by
  simp only [List.mem_iff_getElem?, List.getElem?_dropLast, Option.ite_none_right_eq_some,
    Nat.lt_sub_iff_add_lt]

/-- The changes cannot be computed if and only if some point other than the last is zero. -/
theorem relativeChange_eq_error_iff {e : SeriesError} : s.relativeChange = .error e ↔
    e = .changeFromZero ∧ 2 ≤ s.length ∧
      ∃ i y, i + 1 < s.length ∧ s.values[i]? = some y ∧ (y = 0.0 ∨ y = -0.0) := by
  have hzero : s.values.dropLast.any (Quantity.eq · Quantity.zero) = true ↔
      ∃ i y, i + 1 < s.length ∧ s.values[i]? = some y ∧ (y = 0.0 ∨ y = -0.0) := by
    simp only [List.any_eq_true, mem_dropLast_iff, length_values, Binary.eq_zero_iff_zeros]
    constructor
    · rintro ⟨y, ⟨i, hi, hy⟩, hzero⟩
      exact ⟨i, y, hi, hy, hzero⟩
    · rintro ⟨i, y, hi, hy, hzero⟩
      exact ⟨y, ⟨i, hi, hy⟩, hzero⟩
  by_cases hany : s.values.dropLast.any (Quantity.eq · Quantity.zero) = true
  · obtain ⟨i, y, hi, hy⟩ := hzero.mp hany
    rw [relativeChange, if_pos hany]
    constructor
    · intro h
      cases h
      exact ⟨rfl, by omega, i, y, hi, hy⟩
    · rintro ⟨rfl, -⟩
      rfl
  · rw [relativeChange, if_neg hany]
    constructor
    · intro h
      cases h
    · rintro ⟨-, -, hpoint⟩
      exact absurd (hzero.mpr hpoint) hany

/-- If the changes of finite values can be computed, then all of them are numbers. -/
theorem relativeChange_numbers (hfinite : ∀ p ∈ s.points, p.2.isFinite = true)
    (h : s.relativeChange = .ok x) : x = s.changes ∧ s.changes.numbers = s.changes := by
  rw [relativeChange] at h
  split at h
  · cases h
  next hany =>
  refine ⟨(Except.ok.inj h).symm, numbers_eq_self fun p hp ↦ ?_⟩
  obtain ⟨⟨⟨c, y⟩, ⟨d, z⟩⟩, hstep, rfl⟩ := List.mem_map.mp hp
  obtain ⟨hbefore, hafter⟩ := of_mem_steps hstep
  -- what a change starts from is followed by a point, so it is among those that are tested
  have hstart : y ∈ s.values.dropLast := by
    rw [steps_eq_zip] at hstep
    rw [values, ← List.map_dropLast]
    exact List.mem_map_of_mem (List.of_mem_zip hstep).1
  have hy : y.isFinite = true := hfinite (c, y) hbefore
  have hz : z.isFinite = true := hfinite (d, z) hafter
  have hnonzero : ¬ Quantity.eq y Quantity.zero = true := fun hzero ↦
    hany (List.any_eq_true.mpr ⟨y, hstart, hzero⟩)
  exact Quantity.not_isMissing_change hy hz hnonzero

end Changes

end Series

/-! ## Changes in a market -/

namespace Market

/-- A market with an asset that has a finite price in every row, the rows being dated by moments
that an index can hold. -/
structure FullyPriced (m : Market Float) (asset : Asset) : Prop extends m.Quotes asset where
  inRange : ∀ d ∈ m.prices.dates, ∃ t, d = some t ∧ t.InRange
  finite : ∀ label cells, m.labels.lookup asset.symbol = some label →
    m.prices.cells? label = some cells → ∀ x ∈ cells, x.isFinite = true

variable {m : Market Float} {asset : Asset}

/-- The prices listed of a fully priced asset are finite. -/
theorem FullyPriced.isFinite_of_mem (hm : m.FullyPriced asset)
    {items : List (Option Instant × Float)} (h : m.Lists asset items) :
    ∀ item ∈ items, item.2.isFinite = true := by
  obtain ⟨label, found, hlabel, hfound, hitems⟩ := column_eq_ok.mp h.close
  rw [items?, hm.close] at hfound
  obtain rfl := Option.some.inj hfound
  obtain ⟨cells, hcells, rfl⟩ := Option.map_eq_some_iff.mp hitems
  intro item hitem
  have hcell : item ∈ m.prices.dates.zip cells := (Series.sortItems_perm _).mem_iff.mp hitem
  exact hm.finite label cells hlabel hcells item.2 (List.of_mem_zip hcell).2

/-- The history of the prices has all of them, and the history of the changes is made of it. -/
theorem FullyPriced.exists_prices (hm : m.FullyPriced asset) :
    ∃ prices : Series Float, prices.IsIncreasing ∧
      (∀ p ∈ prices.points, p.2.isFinite = true) ∧
      m.history closeField asset = .ok prices ∧
      m.history changeField asset = .ok prices.changes.numbers := by
  obtain ⟨items, h⟩ := hm.exists_items
  have hfinite := hm.isFinite_of_mem h
  have hpresent : Series.present items = items := by
    refine List.filter_eq_self.mpr fun item hitem ↦ ?_
    rw [Quantity.not_isMissing_of_isFinite (hfinite item hitem), Bool.not_false]
  have hdates : (items.map (·.1)).Nodup := Series.dates_nodup h.ordered
  have hrange : ∀ d ∈ items.map (·.1), ∃ t, d = some t ∧ t.InRange := by
    intro d hd
    obtain ⟨⟨d, x⟩, hmem, rfl⟩ := List.mem_map.mp hd
    exact hm.inRange d ((h.dates d).mpr ⟨x, hmem⟩)
  obtain ⟨prices, hprices⟩ := Series.exists_ofCells hdates hrange
  obtain ⟨hinc, hmoments, hsorted⟩ := Series.ofCells_eq_ok.mp hprices
  -- no item is missing and all are in order, so neither step of making a series changes them
  have hitems : items = prices.items := by
    rw [← hsorted, hpresent]
    refine (Series.sortItems_eq hdates (.refl _) (h.ordered.imp fun {a b} hab ↦ ?_)).symm
    have htotal := Instant.missingLastLE_total a.1 b.1
    rwa [show Instant.missingLastLE b.1 a.1 = false from hab, Bool.or_false] at htotal
  refine ⟨prices, hinc, fun p hp ↦ ?_, history_eq_ok.mpr ⟨items, h.close, hprices⟩,
    history_eq_ok.mpr ⟨_, h.change, ?_⟩⟩
  · exact hfinite (some p.1, p.2) (hitems ▸ List.mem_map_of_mem hp)
  · rw [hitems, ← Series.items_changes]
    refine Series.ofCells_items hinc.changes fun p hp ↦ ?_
    obtain ⟨step, hstep, rfl⟩ := List.mem_map.mp hp
    exact hmoments step.2 (of_mem_steps hstep).2

/-- If the changes of the prices that a market gives as of a moment can be computed, then they are
those that it gives itself.  They can be computed for every series, except for one of at least two
points with a zero among those before the last. -/
theorem relativeChange_eq_query (hm : m.FullyPriced asset) {t : Option Instant}
    (ht : ∀ u, t = some u → u.InRange) :
    (∃ prices changes, m.query asset t (some closeField) = .ok prices ∧
      m.query asset t (some changeField) = .ok changes ∧
      ∀ x, prices.relativeChange = .ok x → x = changes) ∧
    (∀ (s : Series Float) (e : SeriesError), s.relativeChange = .error e ↔
      e = .changeFromZero ∧ 2 ≤ s.length ∧
        ∃ i y, i + 1 < s.length ∧ s.values[i]? = some y ∧ (y = 0.0 ∨ y = -0.0)) ∧
    SeriesError.changeFromZero.isDivision = true := by
  refine ⟨?_, fun _ _ ↦ Series.relativeChange_eq_error_iff, rfl⟩
  obtain ⟨prices, hinc, hfinite, hclose, hchange⟩ := hm.exists_prices
  refine ⟨_, _, query_eq_ok (by decide) hclose ht, query_eq_ok (by decide) hchange ht,
    fun x hx ↦ ?_⟩
  have hfinite' : ∀ p ∈ (prices.upTo t).points, p.2.isFinite = true :=
    fun p hp ↦ hfinite p ((prices.upTo_prefix t).mem hp)
  obtain ⟨rfl, hnumbers⟩ := Series.relativeChange_numbers hfinite' hx
  rw [hinc.changes.numbers_upTo, hinc.changes_upTo, hnumbers]

/-- Three rows out of order, for two assets. -/
def shuffledMarket : Market Float where
  prices := ⟨[some ⟨30⟩, some ⟨10⟩, some ⟨20⟩],
    [(.text "A", [0.0, 4.0, 5.0]), (.text "B", [0.0 / 0.0, 1.0, 2.0])]⟩
  fields := []
  defaultField := closeField

/-- The prices of the first asset in order. -/
def shuffledPrices : Series Float := ⟨[(⟨10⟩, 4.0), (⟨20⟩, 5.0), (⟨30⟩, 0.0)]⟩

theorem shuffledMarket_labels : shuffledMarket.labels.lookup "A" = some (.text "A") := by decide

theorem shuffledMarket_cells :
    shuffledMarket.prices.cells? (.text "A") = some [0.0, 4.0, 5.0] := by decide

theorem shuffledMarket_fullyPriced : shuffledMarket.FullyPriced ⟨"A"⟩ where
  full := by simp [Table.IsFull, shuffledMarket]
  nodup := by decide
  known := by decide
  close := rfl
  change := rfl
  inRange := by
    have hrange : ∀ t ∈ [(⟨30⟩ : Instant), ⟨10⟩, ⟨20⟩], t.InRange := by decide
    intro d hd
    obtain ⟨t, ht, rfl⟩ : ∃ t ∈ [⟨30⟩, ⟨10⟩, ⟨20⟩], some t = d := List.mem_map.mp hd
    exact ⟨t, rfl, hrange t ht⟩
  finite := by
    intro label cells hlabel hcells
    obtain rfl := Option.some.inj (shuffledMarket_labels.symm.trans hlabel)
    obtain rfl := Option.some.inj (shuffledMarket_cells.symm.trans hcells)
    decide

theorem shuffledMarket_history :
    shuffledMarket.history closeField ⟨"A"⟩ = .ok shuffledPrices := by
  have hsorted : Series.sortItems (shuffledMarket.prices.dates.zip [0.0, 4.0, 5.0]) =
      shuffledPrices.items := Series.sortItems_eq (by decide) (by decide) (by decide)
  have hitems : shuffledMarket.prices.items? (.text "A") = some shuffledPrices.items := by
    rw [Table.items?, shuffledMarket_cells, Option.map_some, hsorted]
  have hnumbers : shuffledPrices.numbers = shuffledPrices := by decide
  refine history_eq_ok.mpr
    ⟨_, column_eq_ok.mpr ⟨_, _, shuffledMarket_labels, rfl, hitems⟩, ?_⟩
  rw [Series.ofCells_items (Series.increasing_iff.mp rfl) (by decide), hnumbers]

/-- The zero is the price of the latest row, from which no change starts. -/
theorem shuffledMarket_relativeChange : ∃ prices changes,
    shuffledMarket.query ⟨"A"⟩ (some ⟨40⟩) (some closeField) = .ok prices ∧
      shuffledMarket.query ⟨"A"⟩ (some ⟨40⟩) (some changeField) = .ok changes ∧
      prices.relativeChange = .ok changes ∧
      (⟨[(⟨10⟩, -0.0), (⟨20⟩, 5.0)]⟩ : Series Float).relativeChange =
        .error .changeFromZero := by
  have hrange : ∀ u, some (⟨40⟩ : Instant) = some u → u.InRange := by
    rintro u ⟨⟩
    decide
  obtain ⟨⟨prices, changes, hprices, hchanges, hsame⟩, herror, -⟩ :=
    relativeChange_eq_query shuffledMarket_fullyPriced hrange
  obtain rfl : shuffledPrices = prices := Except.ok.inj
    ((query_eq_ok (by decide) shuffledMarket_history hrange).symm.trans hprices)
  have hchange : shuffledPrices.relativeChange = .ok shuffledPrices.changes := if_neg (by decide)
  exact ⟨_, _, hprices, hchanges, hsame _ hchange ▸ hchange,
    (herror _ _).mpr ⟨rfl, by decide, 0, -0.0, by decide, rfl, .inr rfl⟩⟩

end Market

end ScorePortfolio

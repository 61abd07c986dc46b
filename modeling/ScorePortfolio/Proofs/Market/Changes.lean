import ScorePortfolio.Portfolio.Replay
import ScorePortfolio.Proofs.Evaluation.Pass
import ScorePortfolio.Proofs.Market.Truncation

/-!
# Price changes

The relative price change at a day leads there from the day of the row before in the order of the
dates.  So at one of two consecutive days it is the change between the prices of the two.
-/

namespace ScorePortfolio

variable {α : Type}

/-! ## Prices -/

/-- The price of an asset in the row of a day. -/
def Market.price? (m : Market α) (asset : Asset) (t : Instant) : Option α := do
  let label ← m.labels.lookup asset.symbol
  let cells ← m.prices.cells? label
  (m.prices.dates.zip cells).lookup (some t)

namespace Table

variable {T : Table α} {label : Scalar}

/-- The dates in order. -/
def sortedDates (T : Table α) : List (Option Instant) :=
  T.dates.mergeSort Instant.missingLastLE

theorem sortedDates_perm (T : Table α) : T.sortedDates.Perm T.dates := List.mergeSort_perm _ _

/-- Every column has a cell for each date. -/
def IsFull (T : Table α) : Prop := ∀ column ∈ T.columns, column.2.length = T.dates.length

theorem mem_columns_of_cells? {cells : List α} (h : T.cells? label = some cells) :
    ∃ label', (label', cells) ∈ T.columns := by
  obtain ⟨⟨label', _⟩, hfind, rfl⟩ := Option.map_eq_some_iff.mp h
  exact ⟨label', List.mem_of_find?_eq_some hfind⟩

/-- The items of a full column are dated by all dates, in order. -/
theorem dates_of_items? (hfull : T.IsFull) {items : List (Option Instant × α)}
    (h : T.items? label = some items) : items.map (·.1) = T.sortedDates := by
  obtain ⟨cells, hcells, rfl⟩ := Option.map_eq_some_iff.mp h
  obtain ⟨label', hmem⟩ := mem_columns_of_cells? hcells
  have hdates : (T.dates.zip cells).map (·.1) = T.dates :=
    List.map_fst_zip (hfull _ hmem).ge
  have hsorted : T.sortedDates.Pairwise fun a b ↦ Instant.missingLastLE a b = true := by
    refine List.pairwise_mergeSort ?_ Instant.missingLastLE_total T.dates
    exact fun _ _ _ ↦ Instant.missingLastLE_trans
  refine List.Perm.eq_of_pairwise (fun _ _ _ _ ↦ Instant.missingLastLE_antisymm)
    (List.pairwise_map.mpr (Series.pairwise_sortItems _)) hsorted ?_
  · have hperm := (Series.sortItems_perm (T.dates.zip cells)).map (·.1)
    rw [hdates] at hperm
    exact hperm.trans T.sortedDates_perm.symm

variable [Quantity α]

/-- The change at the second of two consecutive days is the one between their cells. -/
theorem exists_cells_of_change (hfull : T.IsFull) (hnodup : T.dates.Nodup) {s t : Instant}
    (hstep : (some s, some t) ∈ steps T.sortedDates) {l : List (Option Instant × α)} {x : α}
    (h : T.changeItems? label = some l) (hmem : (some t, x) ∈ l) :
    ∃ cells p q, T.cells? label = some cells ∧ (some s, p) ∈ T.dates.zip cells ∧
      (some t, q) ∈ T.dates.zip cells ∧ x = Quantity.change p q := by
  obtain ⟨items, hitems, rfl⟩ := Option.map_eq_some_iff.mp h
  obtain ⟨⟨⟨d, p⟩, ⟨_, q⟩⟩, hchange, heq⟩ := List.mem_map.mp hmem
  obtain ⟨rfl, rfl⟩ := Prod.mk.inj heq
  have hdates := dates_of_items? hfull hitems
  have hstep' : (d, some t) ∈ steps T.sortedDates := by
    rw [← hdates, steps_map]
    exact List.mem_map_of_mem hchange
  -- the change comes from the row before `t`, whose date can only be `s`
  obtain rfl := eq_of_mem_steps (T.sortedDates_perm.nodup_iff.mpr hnodup) hstep' hstep
  obtain ⟨cells, hcells, rfl⟩ := Option.map_eq_some_iff.mp hitems
  have hrow {row : Option Instant × α} (h : row ∈ Series.sortItems (T.dates.zip cells)) :
      row ∈ T.dates.zip cells := (Series.sortItems_perm _).mem_iff.mp h
  obtain ⟨hbefore, hafter⟩ := of_mem_steps hchange
  exact ⟨cells, p, q, hcells, hrow hbefore, hrow hafter, rfl⟩

end Table

namespace Market

variable [Quantity α] {m : Market α} {asset : Asset} {s t : Instant} {x : α}

/-- Where no table bears the name of the relative change, its column is the changes of the
prices. -/
theorem column_change (hfield : m.fields.lookup changeField = none)
    {l : List (Option Instant × α)} (h : m.column changeField asset = .ok l) :
    ∃ label, m.labels.lookup asset.symbol = some label ∧ m.prices.changeItems? label = some l := by
  have hitems : m.items? changeField = some m.prices.changeItems? := by
    rw [items?, hfield]
    exact if_neg (by decide)
  obtain ⟨label, items, hlabel, hfound, hl⟩ := column_eq_ok.mp h
  obtain rfl := Option.some.inj (hfound.symm.trans hitems)
  exact ⟨label, hlabel, hl⟩

/-- A price change that a client gives is among the changes of the prices, unless these are replaced
by a field of their name. -/
theorem mem_changes (hfield : m.fields.lookup changeField = none)
    (h : m.client.changeAt t asset = .ok x) :
    ∃ label l, m.labels.lookup asset.symbol = some label ∧
      m.prices.changeItems? label = some l ∧ (some t, x) ∈ l := by
  obtain ⟨s, hs, h⟩ := bind_eq_ok.mp h
  obtain ⟨history, hhistory, hcut⟩ := bind_eq_ok.mp (Request.send_eq_ok.mp hs)
  obtain ⟨l, hl, hcells⟩ := history_eq_ok.mp hhistory
  have hpoint : (t, x) ∈ s.points := by
    split at h
    · next hx =>
      obtain rfl := pure_eq_ok.mp h
      exact Entries.mem_of_lookup hx
    · exact absurd h throw_ne_ok
  have hpoint : (t, x) ∈ history.points := by
    rw [asOf_eq_ok hcut] at hpoint
    exact (List.takeWhile_sublist _).mem hpoint
  have hitem : (some t, x) ∈ Series.sortItems (Series.present l) := by
    rw [(Series.ofCells_eq_ok.mp hcells).2.2]
    exact Series.mem_items.mpr ⟨t, rfl, hpoint⟩
  obtain ⟨label, hlabel, hchanges⟩ := column_change hfield hl
  exact ⟨label, l, hlabel, hchanges,
    List.mem_of_mem_filter ((Series.sortItems_perm _).mem_iff.mp hitem)⟩

/-- The price change at the second of two consecutive days leads there from the price of the
first. -/
theorem change_of_consecutive (hfield : m.fields.lookup changeField = none)
    (hfull : m.prices.IsFull) (hnodup : m.prices.dates.Nodup)
    (hstep : (some s, some t) ∈ steps m.prices.sortedDates)
    (h : m.client.changeAt t asset = .ok x) :
    ∃ p q, m.price? asset s = some p ∧ m.price? asset t = some q ∧ x = Quantity.change p q := by
  obtain ⟨label, l, hlabel, hl, hmem⟩ := mem_changes hfield h
  obtain ⟨cells, p, q, hcells, hp, hq, rfl⟩ :=
    Table.exists_cells_of_change hfull hnodup hstep hl hmem
  have hprice {t : Instant} {p : α} (h : (some t, p) ∈ m.prices.dates.zip cells) :
      m.price? asset t = some p := by
    simp only [price?, hlabel, hcells, Option.bind_eq_bind, Option.bind_some]
    exact Entries.lookup_of_mem (Table.dates_zip_nodup hnodup cells) h
  exact ⟨p, q, hprice hp, hprice hq, rfl⟩

end Market

end ScorePortfolio

import ScorePortfolio.Proofs.Market.Cache
import ScorePortfolio.Proofs.Market.Truncation

/-!
# Tables in order

If the dates of a table ascend, the items of a column are its cells as they stand, and its changes
lead from each row to the next.  The histories of a market of such prices can then be written down:
they are its columns and the changes within them, without what is not a number.
-/

namespace ScorePortfolio

variable {α : Type}

/-! ## Ascending dates -/

/-- The dates of the rows are given and ascend. -/
def Table.IsAscending (T : Table α) : Prop :=
  ∃ ts : List Instant, T.dates = ts.map some ∧ ts.Pairwise (· < ·)

namespace Table.IsAscending

variable {T : Table α} (h : T.IsAscending)

include h

theorem nodup : T.dates.Nodup := by
  obtain ⟨ts, hdates, hlt⟩ := h
  rw [hdates, List.nodup_map_iff fun _ _ ↦ Option.some.inj]
  exact hlt.imp Instant.ne_of_lt

theorem pairwise : T.dates.Pairwise fun a b ↦ Instant.missingLastLE a b = true := by
  obtain ⟨ts, hdates, hlt⟩ := h
  rw [hdates, List.pairwise_map]
  exact hlt.imp fun hab ↦ decide_eq_true (Instant.le_of_lt hab)

/-- The rows are in order as they stand. -/
theorem items?_eq (label : Scalar) : T.items? label = (T.cells? label).map (T.dates.zip ·) := by
  rw [Table.items?]
  congr 1
  funext cells
  refine Series.sortItems_eq (Table.dates_zip_nodup h.nodup cells) (.refl _) ?_
  exact List.pairwise_map.mp (h.pairwise.sublist (map_fst_zip_sublist _ _))

end Table.IsAscending

/-! ## Markets over given days -/

namespace Series

/-- The series of cells by day. -/
def ofDays (days : List Instant) (cells : List α) : Series α := ⟨days.zip cells⟩

theorem items_ofDays (days : List Instant) (cells : List α) :
    (days.map some).zip cells = (ofDays days cells).items := List.zip_map_left

theorem ofDays_isIncreasing {days : List Instant} (h : days.Pairwise (· < ·)) (cells : List α) :
    (ofDays days cells).IsIncreasing := h.sublist (map_fst_zip_sublist _ _)

/-- The changes from each cell to the next, by the day of the latter. -/
def changesOfDays [Quantity α] (days : List Instant) (cells : List α) : Series α :=
  ofDays days.tail ((steps cells).map fun (x, y) ↦ Quantity.change x y)

/-- The changes over days are dated by the later day of each step. -/
theorem items_changesOfDays [Quantity α] (days : List Instant) (cells : List α) :
    (steps ((days.map some).zip cells)).map (fun ((_, x), (date, y)) ↦
      (date, Quantity.change x y)) = (changesOfDays days cells).items := by
  induction days generalizing cells with
  | nil => rfl
  | cons d days ih =>
    match days, cells with
    | [], [] | [], _ :: _ | _ :: _, [] | _ :: _, [_] => rfl
    | d' :: days, x :: y :: cells =>
      exact congrArg ((some d', Quantity.change x y) :: ·) (ih (y :: cells))

end Series

namespace Market

/-- The market of prices over given days, with a column of cells for each symbol. -/
def ofDays (days : List Instant) (columns : List (String × List α)) : Market α where
  prices := ⟨days.map some, columns.map fun (symbol, cells) ↦ (.text symbol, cells)⟩
  fields := []
  defaultField := closeField

variable {days : List Instant} {columns : List (String × List α)} {symbol : String}
  {cells : List α}

/-- In a market over days a symbol leads to the label of its column. -/
theorem lookup_labels_ofDays (hsymbols : (columns.map (·.1)).Nodup)
    (hmem : (symbol, cells) ∈ columns) :
    (ofDays days columns).labels.lookup symbol = some (.text symbol) := by
  have hkeys : (columns.map fun (s, _) ↦ (s, Scalar.text s)).Pairwise
      fun a b ↦ (a.1 == b.1) = false := by
    rw [List.pairwise_map]
    exact (List.pairwise_map.mp hsymbols).imp fun hne ↦ beq_eq_false_iff_ne.mpr hne
  have hlabels : (ofDays days columns).labels = columns.map fun (s, _) ↦ (s, Scalar.text s) := by
    rw [labels, ofDays, List.map_map]
    exact Entries.ofList_eq_self hkeys
  rw [hlabels]
  refine Entries.lookup_of_mem ?_ (List.mem_map.mpr ⟨_, hmem, rfl⟩)
  rwa [List.map_map]

/-- In a market over days a symbol leads to the cells of its column. -/
theorem cells?_ofDays (hsymbols : (columns.map (·.1)).Nodup) (hmem : (symbol, cells) ∈ columns) :
    (ofDays days columns).prices.cells? (.text symbol) = some cells := by
  refine Entries.find?_of_mem Scalar.same_self ?_ (List.mem_map.mpr ⟨_, hmem, rfl⟩)
  refine List.pairwise_map.mpr ?_
  refine (List.pairwise_map.mp hsymbols).imp fun hne ↦ ?_
  rw [Scalar.same_text]
  exact decide_eq_false hne

variable [Quantity α]

/-- The histories of these prices and of their changes. -/
def dailyCache (days : List Instant) (columns : List (String × List α)) : Cache α :=
  columns.flatMap fun (symbol, cells) ↦
    [((closeField, symbol), (Series.ofDays days cells).numbers),
     ((changeField, symbol), (Series.changesOfDays days cells).numbers)]

/-- The histories are those of the market. -/
theorem ofDays_holds (hdays : days.Pairwise (· < ·)) (hrange : ∀ d ∈ days, d.InRange)
    (hsymbols : (columns.map (·.1)).Nodup) :
    (ofDays days columns).Holds (dailyCache days columns) := by
  have hitems (label : Scalar) : (ofDays days columns).prices.items? label =
      ((ofDays days columns).prices.cells? label).map ((days.map some).zip ·) :=
    Table.IsAscending.items?_eq ⟨days, rfl, hdays⟩ label
  have hcells {days' : List Instant} (hsub : days'.Sublist days) (cells : List α) :
      Series.ofCells (Series.ofDays days' cells).items = .ok (Series.ofDays days' cells).numbers :=
    Series.ofCells_items (Series.ofDays_isIncreasing (hdays.sublist hsub) cells) fun p hp ↦
      hrange p.1 (hsub.mem (List.of_mem_zip hp).1)
  intro e he
  obtain ⟨⟨symbol, cells⟩, hmem, he⟩ := List.mem_flatMap.mp he
  have hlabel : (ofDays days columns).labels.lookup symbol = some (.text symbol) :=
    lookup_labels_ofDays hsymbols hmem
  have hfound := hitems (.text symbol)
  rw [cells?_ofDays hsymbols hmem, Option.map_some] at hfound
  simp only [List.mem_cons, List.not_mem_nil, or_false] at he
  rcases he with rfl | rfl
  · refine history_eq_ok.mpr ⟨_, column_eq_ok.mpr ⟨_, _, hlabel, rfl, hfound⟩, ?_⟩
    rw [Series.items_ofDays]
    exact hcells (.refl _) cells
  · have hchanges : (ofDays days columns).prices.changeItems? (.text symbol) =
        some (Series.changesOfDays days cells).items := by
      rw [Table.changeItems?, hfound, Option.map_some, Series.items_changesOfDays]
    exact history_eq_ok.mpr ⟨_, column_eq_ok.mpr ⟨_, _, hlabel, rfl, hchanges⟩,
      hcells (List.tail_sublist _) _⟩

end Market

end ScorePortfolio

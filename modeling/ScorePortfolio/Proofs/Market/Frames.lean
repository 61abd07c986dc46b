import ScorePortfolio.Proofs.Market.Changes

/-!
# Frames

A frame is a table as it is made from columns: labels are told apart, and each column has a cell in
every row.  What is at a label and a date does not depend on the order of the rows, and so neither
do the items of a column nor the changes from each date to the next.
-/

namespace ScorePortfolio

namespace Table

variable {α : Type} {T T' : Table α} {label : Scalar} {cells : List α} {d : Instant} {x : α}

/-- The labels are told apart, and every column has a cell for each date. -/
structure IsFrame (T : Table α) : Prop where
  full : T.IsFull
  labels : T.columns.Pairwise fun a b ↦ Scalar.same a.1 b.1 = false

/-- Every table that is made from columns is a frame. -/
theorem isFrame_of_ofColumns? {dates : List (Option Instant)} {columns : List (Scalar × List α)}
    (h : ofColumns? dates columns = some T) : T.IsFrame := by
  rw [ofColumns?] at h
  split at h
  · next hall =>
    obtain rfl := Option.some.inj h
    refine ⟨fun column hcolumn ↦ ?_, Entries.pairwise_ofList columns⟩
    exact eq_of_beq (List.all_eq_true.mp hall column hcolumn)
  · cases h

/-- The table has the value in the column of the label, at the date. -/
def HasCell (T : Table α) (label : Scalar) (d : Instant) (x : α) : Prop :=
  ∃ cells, (label, cells) ∈ T.columns ∧ (some d, x) ∈ T.dates.zip cells

theorem IsFrame.cells?_eq (h : T.IsFrame) (hmem : (label, cells) ∈ T.columns) :
    T.cells? label = some cells :=
  Entries.find?_of_mem Scalar.same_self h.labels hmem

/-- The cells of a label in a frame are those of its column. -/
theorem IsFrame.mem_zip_of_hasCell (h : T.IsFrame) (hcells : T.cells? label = some cells)
    (hx : T.HasCell label d x) : (some d, x) ∈ T.dates.zip cells := by
  obtain ⟨cells', hmem, hx⟩ := hx
  obtain rfl := Option.some.inj (hcells.symm.trans (h.cells?_eq hmem))
  exact hx

/-- In a frame a label has one column. -/
theorem IsFrame.hasCell_iff (h : T.IsFrame) (hmem : (label, cells) ∈ T.columns) :
    T.HasCell label d x ↔ (some d, x) ∈ T.dates.zip cells := by
  constructor
  · exact h.mem_zip_of_hasCell (h.cells?_eq hmem)
  · intro hx
    exact ⟨cells, hmem, hx⟩

/-! ## Items and changes -/

theorem IsFrame.exists_items (h : T.IsFrame) (hlabel : label ∈ T.columns.map (·.1)) :
    ∃ items, T.items? label = some items ∧ ∀ d x, (some d, x) ∈ items ↔ T.HasCell label d x := by
  obtain ⟨⟨label, cells⟩, hmem, rfl⟩ := List.mem_map.mp hlabel
  refine ⟨Series.sortItems (T.dates.zip cells), ?_, fun d x ↦ ?_⟩
  · rw [items?, h.cells?_eq hmem, Option.map_some]
  · rw [(Series.sortItems_perm _).mem_iff, h.hasCell_iff hmem]

/-- The changes of a column lead from the cell at each date to the cell at the next. -/
theorem IsFrame.exists_changes [Quantity α] (h : T.IsFrame) (hdated : T.IsDated)
    (hlabel : label ∈ T.columns.map (·.1)) :
    ∃ l, T.changeItems? label = some l ∧ ∀ d x, (some d, x) ∈ l ↔
      ∃ c p q, (some c, some d) ∈ steps T.sortedDates ∧
        T.HasCell label c p ∧ T.HasCell label d q ∧ x = Quantity.change p q := by
  obtain ⟨items, hitems, hmem⟩ := h.exists_items hlabel
  have hdates := dates_of_items? h.full hitems
  refine ⟨(steps items).map fun step ↦ (step.2.1, Quantity.change step.1.2 step.2.2), ?_,
    fun d x ↦ ⟨fun hx ↦ ?_, ?_⟩⟩
  · rw [changeItems?, hitems, Option.map_some]
  · obtain ⟨⟨⟨date, p⟩, ⟨_, q⟩⟩, hstep, heq⟩ := List.mem_map.mp hx
    obtain ⟨rfl, rfl⟩ := Prod.mk.inj heq
    have hstep' : (date, some d) ∈ steps T.sortedDates := by
      rw [← hdates, steps_map]
      exact List.mem_map_of_mem hstep
    have hdate : date ∈ T.dates := T.sortedDates_perm.mem_iff.mp (List.of_mem_zip hstep').1
    obtain ⟨c, rfl, -⟩ := hdated.inRange date hdate
    obtain ⟨hbefore, hafter⟩ := of_mem_steps hstep
    exact ⟨c, p, q, hstep', (hmem c p).mp hbefore, (hmem d q).mp hafter, rfl⟩
  · rintro ⟨c, p, q, hstep, hp, hq, rfl⟩
    -- a date has one item, so the step between the dates is the one between the two cells
    have hone {item item' : Option Instant × α} (hitem : item ∈ items) (hitem' : item' ∈ items)
        (heq : item.1 = item'.1) : item = item' :=
      List.inj_on_of_nodup_map (hdates ▸ T.sortedDates_perm.nodup_iff.mpr hdated.nodup)
        hitem hitem' heq
    rw [← hdates, steps_map] at hstep
    obtain ⟨⟨⟨_, p'⟩, ⟨_, q'⟩⟩, hstep, heq⟩ := List.mem_map.mp hstep
    obtain ⟨rfl, rfl⟩ := Prod.mk.inj heq
    obtain ⟨hbefore, hafter⟩ := of_mem_steps hstep
    obtain ⟨-, rfl⟩ := Prod.mk.inj (hone hbefore ((hmem c p).mpr hp) rfl)
    obtain ⟨-, rfl⟩ := Prod.mk.inj (hone hafter ((hmem d q).mpr hq) rfl)
    exact List.mem_map.mpr ⟨_, hstep, rfl⟩

/-! ## Rows -/

/-- The rows, each a date with the cells of all columns. -/
def rows (T : Table α) : List (Option Instant × List (Scalar × Option α)) :=
  T.dates.zipIdx.map fun (date, i) ↦ (date, T.columns.map fun (label, cells) ↦ (label, cells[i]?))

/-- Two tables have the same columns, and the same rows in another order. -/
structure SameRows (T T' : Table α) : Prop where
  labels : T.columns.map (·.1) = T'.columns.map (·.1)
  rows : T.rows.Perm T'.rows

theorem map_fst_rows (T : Table α) : T.rows.map (·.1) = T.dates := by
  rw [rows, List.map_map]
  exact List.zipIdx_map_fst 0 T.dates

/-- A cell of a column is in the row of its date. -/
theorem mem_zip_iff (hcells : T.cells? label = some cells) {date : Option Instant} :
    (date, x) ∈ T.dates.zip cells ↔
      ∃ row, (date, row) ∈ T.rows ∧ Entries.find? Scalar.same label row = some (some x) := by
  have hfind (i : ℕ) : Entries.find? Scalar.same label
      (T.columns.map fun (label, cells) ↦ (label, cells[i]?)) = some cells[i]? := by
    rw [Entries.find?_map (fun cells : List α ↦ cells[i]?)]
    exact congrArg (Option.map _) hcells
  rw [List.mem_iff_getElem?]
  constructor
  · rintro ⟨i, hi⟩
    obtain ⟨hdate, hx⟩ := List.getElem?_zip_eq_some.mp hi
    exact ⟨_, List.mem_map.mpr ⟨(date, i), List.mem_zipIdx_iff_getElem?.mpr hdate, rfl⟩,
      by rw [hfind, hx]⟩
  · rintro ⟨row, hrow, hx⟩
    obtain ⟨⟨_, i⟩, hdate, heq⟩ := List.mem_map.mp hrow
    obtain ⟨rfl, rfl⟩ := Prod.mk.inj heq
    refine ⟨i, List.getElem?_zip_eq_some.mpr ⟨List.mem_zipIdx_iff_getElem?.mp hdate, ?_⟩⟩
    exact Option.some.inj ((hfind i).symm.trans hx)

namespace SameRows

/-- Tables with the same rows agree up to any moment. -/
theorem agreesUpTo (h : T.SameRows T') (t : Instant) : T.AgreesUpTo T' t := by
  refine ⟨h.labels, ?_⟩
  intro label cells cells' hcells hcells' d x _
  rw [mem_zip_iff hcells, mem_zip_iff hcells']
  simp only [h.rows.mem_iff]

theorem dates_perm (h : T.SameRows T') : T.dates.Perm T'.dates := by
  rw [← T.map_fst_rows, ← T'.map_fst_rows]
  exact h.rows.map _

theorem isDated (h : T.SameRows T') (hT : T.IsDated) : T'.IsDated :=
  ⟨h.dates_perm.nodup_iff.mp hT.nodup, fun d hd ↦ hT.inRange d (h.dates_perm.mem_iff.mpr hd)⟩

end SameRows

end Table

end ScorePortfolio

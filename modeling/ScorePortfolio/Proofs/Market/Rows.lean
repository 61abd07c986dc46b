import ScorePortfolio.Proofs.Entries
import ScorePortfolio.Proofs.Series.Increasing
import ScorePortfolio.Proofs.Series.Steps
import ScorePortfolio.Market.Table

/-!
# Rows up to a moment

The items of a column come in the order of their dates, and if no date repeats there is one such
order.  Taking the rows up to a moment out of a table therefore takes the items up to the moment out
of each column, and the changes up to the moment too, since the row before a row that is taken is
taken as well.  A missing date lies after every moment.
-/

namespace ScorePortfolio

namespace Instant

/-! ## Dates in order -/

/-- Whether a date is not after a moment, as a missing one is. -/
def notAfter (t : Instant) (date : Option Instant) : Bool := missingLastLE date (some t)

@[simp] theorem notAfter_none (t : Instant) : notAfter t none = false := rfl

@[simp] theorem notAfter_some (t d : Instant) : notAfter t (some d) = decide (d ≤ t) := rfl

theorem missingLastLE_trans {a b c : Option Instant} (hab : missingLastLE a b = true)
    (hbc : missingLastLE b c = true) : missingLastLE a c = true := by
  match a, b, c with
  | _, _, none => rfl
  | none, some _, some _ => cases hab
  | some a, some b, some c =>
    have hab : a ≤ b := of_decide_eq_true hab
    have hbc : b ≤ c := of_decide_eq_true hbc
    exact decide_eq_true (le_trans hab hbc)

theorem missingLastLE_total (a b : Option Instant) :
    (missingLastLE a b || missingLastLE b a) = true := by
  match a, b with
  | _, none => rfl
  | none, some _ => rfl
  | some a, some b =>
    have htotal : a ≤ b ∨ b ≤ a := Int.le_total a.nanoseconds b.nanoseconds
    simpa [missingLastLE] using htotal

/-- Of two distinct dates at most one is not after the other. -/
theorem missingLastLE_antisymm {a b : Option Instant} (hab : missingLastLE a b = true)
    (hba : missingLastLE b a = true) : a = b := by
  match a, b with
  | none, none => rfl
  | none, some _ => cases hab
  | some _, none => cases hba
  | some a, some b =>
    have hab : a ≤ b := of_decide_eq_true hab
    have hba : b ≤ a := of_decide_eq_true hba
    exact congrArg some (eq_iff.mpr (Int.le_antisymm hab hba))

end Instant

/-! ## Items in order -/

namespace Series

variable {α : Type} {items items' : List (Option Instant × α)}

theorem sortItems_perm (items : List (Option Instant × α)) : (sortItems items).Perm items :=
  List.mergeSort_perm _ _

/-- Sorted items are in order of their dates, the missing ones last. -/
theorem pairwise_sortItems (items : List (Option Instant × α)) :
    (sortItems items).Pairwise fun a b ↦ Instant.missingLastLE a.1 b.1 = true := by
  refine List.pairwise_mergeSort ?_ ?_ items
  · exact fun _ _ _ ↦ Instant.missingLastLE_trans
  · exact fun a b ↦ Instant.missingLastLE_total a.1 b.1

/-- Of items whose dates differ there is one order. -/
theorem sortItems_eq (hdates : (items.map (·.1)).Nodup) (hperm : items'.Perm items)
    (hsorted : items'.Pairwise fun a b ↦ Instant.missingLastLE a.1 b.1 = true) :
    sortItems items = items' := by
  have hperm' : (sortItems items).Perm items' := (sortItems_perm items).trans hperm.symm
  refine List.Perm.eq_of_pairwise (fun a b ha hb hab hba ↦ ?_) (pairwise_sortItems items) hsorted
    hperm'
  exact List.inj_on_of_nodup_map hdates ((sortItems_perm items).mem_iff.mp ha) (hperm.mem_iff.mp hb)
    (Instant.missingLastLE_antisymm hab hba)

theorem sortItems_congr (hdates : (items.map (·.1)).Nodup) (hperm : items'.Perm items) :
    sortItems items' = sortItems items :=
  (sortItems_eq hdates ((sortItems_perm items').trans hperm) (pairwise_sortItems items')).symm

theorem sortItems_filter (hdates : (items.map (·.1)).Nodup) (p : Option Instant × α → Bool) :
    sortItems (items.filter p) = (sortItems items).filter p :=
  sortItems_eq (hdates.sublist (List.filter_sublist.map _)) ((sortItems_perm items).filter p)
    ((pairwise_sortItems items).filter p)

end Series

/-! ## Tables -/

namespace Table

variable {α : Type}

/-- The cells of a column in the rows up to a moment. -/
def cellsUpTo (T : Table α) (t : Instant) (cells : List α) : List α :=
  ((T.dates.zip cells).filter fun row ↦ Instant.notAfter t row.1).map (·.2)

/-- The rows up to a moment, this one included. -/
def upTo (T : Table α) (t : Instant) : Table α where
  dates := T.dates.filter (Instant.notAfter t)
  columns := T.columns.map fun (label, cells) ↦ (label, T.cellsUpTo t cells)

/-- Two tables have the same columns, and in the rows up to a moment the same cells; the order of
the rows does not matter. -/
structure AgreesUpTo (T T' : Table α) (t : Instant) : Prop where
  labels : T.columns.map (·.1) = T'.columns.map (·.1)
  cells : ∀ {label cells cells'}, T.cells? label = some cells → T'.cells? label = some cells' →
    ∀ {d x}, d ≤ t → ((some d, x) ∈ T.dates.zip cells ↔ (some d, x) ∈ T'.dates.zip cells')

variable {T T' : Table α} {t : Instant} {label : Scalar}

@[simp] theorem labels_upTo (T : Table α) (t : Instant) :
    (T.upTo t).columns.map (·.1) = T.columns.map (·.1) := by
  simp [upTo, Function.comp_def]

theorem cells?_upTo : (T.upTo t).cells? label = (T.cells? label).map (T.cellsUpTo t) :=
  Entries.find?_map (T.cellsUpTo t) label T.columns

/-- Filtering the first list of a zip, and the second by the first, is filtering the zip. -/
theorem zip_filter {β γ : Type} (p : β → Bool) (xs : List β) (ys : List γ) :
    (xs.filter p).zip (((xs.zip ys).filter fun q ↦ p q.1).map (·.2)) =
      (xs.zip ys).filter fun q ↦ p q.1 := by
  induction xs generalizing ys with
  | nil => rfl
  | cons x xs ih =>
    cases ys with
    | nil => simp
    | cons y ys => by_cases hx : p x = true <;> simp [hx, ih]

theorem dates_zip_nodup (hdates : T.dates.Nodup) (cells : List α) :
    ((T.dates.zip cells).map (·.1)).Nodup :=
  hdates.sublist (map_fst_zip_sublist _ _)

/-- The items of the rows up to a moment are the items up to it. -/
theorem items?_upTo (hdates : T.dates.Nodup) (label : Scalar) : (T.upTo t).items? label =
    (T.items? label).map (·.filter fun item ↦ Instant.notAfter t item.1) := by
  rw [items?, items?, cells?_upTo, Option.map_map, Option.map_map]
  congr 1
  funext cells
  exact (congrArg Series.sortItems (zip_filter _ _ _)).trans
    (Series.sortItems_filter (dates_zip_nodup hdates cells) _)

theorem pairwise_of_items? {items : List (Option Instant × α)} (h : T.items? label = some items) :
    items.Pairwise fun a b ↦ Instant.missingLastLE a.1 b.1 = true := by
  obtain ⟨cells, -, rfl⟩ := Option.map_eq_some_iff.mp h
  exact Series.pairwise_sortItems _

/-- The changes in the rows up to a moment are the changes up to it. -/
theorem changeItems?_upTo [Quantity α] (hdates : T.dates.Nodup) (label : Scalar) :
    (T.upTo t).changeItems? label =
      (T.changeItems? label).map (·.filter fun item ↦ Instant.notAfter t item.1) := by
  rw [changeItems?, changeItems?, items?_upTo hdates]
  cases hitems : T.items? label with
  | none => rfl
  | some items =>
    have hearlier := (pairwise_of_items? hitems).imp fun {a b} hab hb ↦
      Instant.missingLastLE_trans (c := some t) hab hb
    simp only [Option.map_some, List.filter_map]
    exact congrArg some (congrArg _ (steps_filter hearlier))

theorem AgreesUpTo.isSome_cells? (h : T.AgreesUpTo T' t) (label : Scalar) :
    (T.cells? label).isSome = (T'.cells? label).isSome := by
  rw [cells?, cells?, Entries.isSome_find?, Entries.isSome_find?, h.labels]

/-- Tables that agree up to a moment have the same items up to it. -/
theorem AgreesUpTo.items?_eq (h : T.AgreesUpTo T' t) (hdates : T.dates.Nodup)
    (hdates' : T'.dates.Nodup) (label : Scalar) :
    (T.upTo t).items? label = (T'.upTo t).items? label := by
  have hsome := h.isSome_cells? label
  rw [items?_upTo hdates, items?_upTo hdates', items?, items?]
  cases hcells : T.cells? label with
  | none =>
    rw [hcells, Option.isSome_none, eq_comm, Option.isSome_eq_false_iff, Option.isNone_iff_eq_none]
      at hsome
    rw [hsome]
    rfl
  | some cells =>
    obtain ⟨cells', hcells'⟩ := Option.isSome_iff_exists.mp (hcells ▸ hsome).symm
    -- both columns have the same rows up to the moment, and of these there is one order
    have hkeys := dates_zip_nodup hdates cells
    have hkeys' := dates_zip_nodup hdates' cells'
    have hperm : ((T.dates.zip cells).filter fun row ↦ Instant.notAfter t row.1).Perm
        ((T'.dates.zip cells').filter fun row ↦ Instant.notAfter t row.1) := by
      rw [List.perm_ext_iff_of_nodup (hkeys.of_map.filter _) (hkeys'.of_map.filter _)]
      rintro ⟨_ | d, x⟩
      · simp
      · simp only [List.mem_filter, Instant.notAfter_some, decide_eq_true_eq]
        exact and_congr_left fun hle ↦ h.cells hcells hcells' hle
    have hsorted := Series.sortItems_congr (hkeys'.sublist (List.filter_sublist.map _)) hperm
    rw [hcells', Option.map_some, Option.map_some, Option.map_some, Option.map_some,
      ← Series.sortItems_filter hkeys, ← Series.sortItems_filter hkeys', hsorted]

end Table

end ScorePortfolio

import ScorePortfolio.Proofs.Market.Truncation
import ScorePortfolio.Proofs.Series.Dates

/-!
# Other dates for markets

A market whose rows are dated anew, in the same order, has the same columns under the new dates.  So
its client answers a query as of the new date of a moment with what it answered as of the moment,
under the new dates.  Nothing is asked of the dates themselves: they may repeat or be missing.
-/

namespace ScorePortfolio

variable {φ : Instant → Instant} {D : Set Instant} {α : Type}

/-! ## Tables -/

namespace Table

/-- The table with other dates. -/
def redate (φ : Instant → Instant) (T : Table α) : Table α :=
  { T with dates := T.dates.map (Option.map φ) }

/-- The dates of the rows that have one are in the set. -/
def DatedIn (T : Table α) (D : Set Instant) : Prop := ∀ d ∈ T.dates, ∀ t ∈ d, t ∈ D

variable {T : Table α} {label : Scalar} {l : List (Option Instant × α)}

theorem DatedIn.zip (hT : T.DatedIn D) (cells : List α) : ItemsDatedIn (T.dates.zip cells) D :=
  fun _ hitem ↦ hT _ (List.of_mem_zip hitem).1

/-- The items of the redated table are the items, redated: sorting by date commutes with it. -/
theorem items?_redate (hφ : Redates φ D) (hT : T.DatedIn D) (label : Scalar) :
    (T.redate φ).items? label = (T.items? label).map (redateItems φ) := by
  have hcells : (T.redate φ).cells? label = T.cells? label := rfl
  rw [items?, items?, hcells, Option.map_map]
  refine Option.map_congr fun cells _ ↦ ?_
  rw [Function.comp_apply, ← Series.sortItems_redate hφ (hT.zip cells), redateItems,
    ← List.zip_map_left]
  rfl

theorem items?_datedIn (hT : T.DatedIn D) (h : T.items? label = some l) : ItemsDatedIn l D := by
  obtain ⟨cells, -, rfl⟩ := Option.map_eq_some_iff.mp h
  exact fun item hitem ↦ hT.zip cells item ((Series.sortItems_perm _).mem_iff.mp hitem)

variable [Quantity α]

/-- The changes of the redated table are the changes, redated. -/
theorem changeItems?_redate (hφ : Redates φ D) (hT : T.DatedIn D) (label : Scalar) :
    (T.redate φ).changeItems? label = (T.changeItems? label).map (redateItems φ) := by
  rw [changeItems?, changeItems?, items?_redate hφ hT, Option.map_map, Option.map_map]
  refine Option.map_congr fun items _ ↦ ?_
  simp only [Function.comp_apply, redateItems, steps_map, List.map_map]
  rfl

theorem changeItems?_datedIn (hT : T.DatedIn D) (h : T.changeItems? label = some l) :
    ItemsDatedIn l D := by
  obtain ⟨items, hitems, rfl⟩ := Option.map_eq_some_iff.mp h
  exact List.forall_mem_map.mpr fun step hstep ↦
    items?_datedIn hT hitems step.2 (of_mem_steps hstep).2

end Table

/-! ## Clients -/

/-- The error with other dates. -/
def ClientError.redate (φ : Instant → Instant) : ClientError → ClientError
  | series cause => series (cause.redate φ)
  | dateOutOfRange cause => dateOutOfRange (cause.redate φ)
  | momentOutOfRange cause => momentOutOfRange (cause.redate φ)
  | noChange t => noChange (t.map φ)
  | e => e

/-- The second client knows the same assets and gives the answers of the first one under other
dates, or fails for the same reason, when it is asked as of the new date of a moment. -/
structure Client.Redated (φ : Instant → Instant) (D : Set Instant) (c c' : Client α) : Prop where
  assets : c'.assets = c.assets
  query : ∀ (asset : Asset) (t : Option Instant) (field : Option String), (∀ u ∈ t, u ∈ D) →
    Agree (fun e e' ↦ e' = e.redate φ) (Series.Redated φ D) (c.query asset t field)
      (c'.query asset (t.map φ) field)

namespace Market

/-- The market with other dates. -/
def redate (φ : Instant → Instant) (m : Market α) : Market α where
  prices := m.prices.redate φ
  fields := m.fields.map fun (name, T) ↦ (name, T.redate φ)
  defaultField := m.defaultField

/-- The dates of all rows that have one are in the set. -/
def DatedIn (m : Market α) (D : Set Instant) : Prop := ∀ T ∈ m.tables, T.DatedIn D

variable {m : Market α}

theorem labels_redate (m : Market α) : (m.redate φ).labels = m.labels := rfl

theorem assets_redate (m : Market α) : (m.redate φ).assets = m.assets := rfl

theorem fieldNames_redate (m : Market α) : (m.redate φ).fieldNames = m.fieldNames := by
  simp [fieldNames, redate, Function.comp_def]

variable [Quantity α] {field : String} {asset : Asset}

/-- The items of a field of the redated market are the items, redated. -/
theorem items?_redate (hφ : Redates φ D) (hm : m.DatedIn D) : (m.redate φ).items? field =
    (m.items? field).map fun items label ↦ (items label).map (redateItems φ) := by
  have hprices : m.prices.DatedIn D := hm _ prices_mem_tables
  have hlookup : (m.redate φ).fields.lookup field = (m.fields.lookup field).map (·.redate φ) :=
    Entries.lookup_map (fun T : Table α ↦ T.redate φ) field m.fields
  rw [items?, items?, hlookup]
  cases hT : m.fields.lookup field with
  | some T =>
    exact congrArg some (funext (Table.items?_redate hφ (hm T (mem_tables_of_lookup hT))))
  | none =>
    simp only [Option.map_none]
    split
    · exact congrArg some (funext (Table.items?_redate hφ hprices))
    split
    · exact congrArg some (funext (Table.changeItems?_redate hφ hprices))
    · rfl

/-- A column is found under the new dates, or missing for the same reason. -/
theorem column_agree (hφ : Redates φ D) (hm : m.DatedIn D) (field : String) (asset : Asset) :
    Agree (fun e e' ↦ e' = e.redate φ) (fun l l' ↦ ItemsDatedIn l D ∧ l' = redateItems φ l)
      (m.column field asset) ((m.redate φ).column field asset) := by
  have hdated {l} (hl : m.column field asset = .ok l) : ItemsDatedIn l D := by
    obtain ⟨T, hT, label, hitems | hitems⟩ := exists_table hl
    · exact Table.items?_datedIn (hm T hT) hitems
    · exact Table.changeItems?_datedIn (hm T hT) hitems
  rw [column, column, labels_redate, items?_redate hφ hm, fieldNames_redate]
  cases hlabel : m.labels.lookup asset.symbol with
  | none => exact .error rfl
  | some label =>
    cases hitems : m.items? field with
    | none => exact .error rfl
    | some items =>
      cases hl : items label with
      | none =>
        simp only [hl, Option.map_some, Option.map_none]
        exact .error rfl
      | some l =>
        simp only [hl, Option.map_some]
        exact .ok ⟨hdated (column_eq_ok.mpr ⟨label, items, hlabel, hitems, hl⟩), rfl⟩

/-- The histories of the redated market are the histories, redated, with the same failures. -/
theorem history_agree (hφ : Redates φ D) (hm : m.DatedIn D) (field : String) (asset : Asset) :
    Agree (fun e e' ↦ e' = e.redate φ) (Series.Redated φ D) (m.history field asset)
      ((m.redate φ).history field asset) := by
  rw [history_eq, history_eq]
  refine (column_agree hφ hm field asset).bind ?_
  rintro l _ - ⟨hl, rfl⟩
  refine (Series.ofCells_agree hφ hl).mapError ?_
  rintro (e | e) _ rfl <;> rfl

/-- The redated market, asked as of the redated moment, answers with the redated series. -/
theorem query_agree (hφ : Redates φ D) (hm : m.DatedIn D) (asset : Asset) {t : Option Instant}
    (ht : ∀ u ∈ t, u ∈ D) (field : Option String) :
    Agree (fun e e' ↦ e' = e.redate φ) (Series.Redated φ D) (m.query asset t field)
      ((m.redate φ).query asset (t.map φ) field) := by
  refine (history_agree hφ hm _ asset).bind ?_
  rintro s _ - ⟨hs, rfl⟩
  rw [asOf, asOf, hφ.fitOf ht, hφ.fitOf_image ht]
  exact .ok (Series.upTo_redate hφ hs ht)

theorem client_redated (hφ : Redates φ D) (hm : m.DatedIn D) :
    Client.Redated φ D m.client (m.redate φ).client where
  assets := assets_redate m
  query asset _ field ht := query_agree hφ hm asset ht field

end Market

end ScorePortfolio

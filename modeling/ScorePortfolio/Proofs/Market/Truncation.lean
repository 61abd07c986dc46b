import ScorePortfolio.Proofs.Market.History
import ScorePortfolio.Proofs.Series.Cells
import ScorePortfolio.Proofs.Strategy.Names

/-!
# Markets up to a moment

A market as of a moment is the market without its later rows.  A query as of the moment, or of an
earlier one, finds the same answer there as in the whole market: the history of a column is built
from all rows and cut afterwards, but building and cutting commute.  Two markets that agree up to a
moment are the same as of it, so they give the same answers.
-/

namespace ScorePortfolio

/-- No date repeats, and every date is one that an index can hold. -/
structure Table.IsDated {α : Type} (T : Table α) : Prop where
  nodup : T.dates.Nodup
  inRange : ∀ d ∈ T.dates, ∃ t, d = some t ∧ t.InRange

namespace Market

variable {α : Type}

/-- The tables of a market. -/
def tables (m : Market α) : List (Table α) := m.prices :: m.fields.map (·.2)

/-- The market without the rows after a moment. -/
def upTo (m : Market α) (t : Instant) : Market α where
  prices := m.prices.upTo t
  fields := m.fields.map fun (name, T) ↦ (name, T.upTo t)
  defaultField := m.defaultField

@[simp] theorem prices_upTo (m : Market α) (t : Instant) :
    (m.upTo t).prices = m.prices.upTo t := rfl

theorem lookup_fields_upTo (m : Market α) (t : Instant) (name : String) :
    (m.upTo t).fields.lookup name = (m.fields.lookup name).map (·.upTo t) :=
  Entries.lookup_map (fun T : Table α ↦ T.upTo t) name m.fields

/-- Two markets have the same fields, and tables that agree up to a moment. -/
structure AgreesUpTo (m m' : Market α) (t : Instant) : Prop where
  prices : m.prices.AgreesUpTo m'.prices t
  names : ∀ name, name ∈ m.fields.map (·.1) ↔ name ∈ m'.fields.map (·.1)
  fields : ∀ {name T T'}, m.fields.lookup name = some T → m'.fields.lookup name = some T' →
    T.AgreesUpTo T' t
  defaultField : m.defaultField = m'.defaultField

variable {m m' : Market α} {t : Instant}

theorem prices_mem_tables : m.prices ∈ m.tables := List.mem_cons_self

theorem mem_tables_of_lookup {name : String} {T : Table α} (h : m.fields.lookup name = some T) :
    T ∈ m.tables :=
  List.mem_cons_of_mem _ (List.mem_map_of_mem (f := (·.2)) (Entries.mem_of_lookup h))

/-! ## Labels and names -/

/-- The labels of a market depend on the heads of its price columns alone. -/
theorem labels_congr (h : m.prices.columns.map (·.1) = m'.prices.columns.map (·.1)) :
    m.labels = m'.labels := by
  have hlabels (m : Market α) : m.labels = Entries.ofList (· == ·)
      ((m.prices.columns.map (·.1)).map fun label ↦ (label.asText, label)) := by
    rw [labels, List.map_map]
    rfl
  rw [hlabels, hlabels, h]

@[simp] theorem labels_upTo (m : Market α) (t : Instant) : (m.upTo t).labels = m.labels :=
  labels_congr (Table.labels_upTo m.prices t)

theorem assets_congr (h : m.labels = m'.labels) : m.assets = m'.assets := by
  rw [assets, assets, h]

@[simp] theorem fieldNames_upTo (m : Market α) (t : Instant) :
    (m.upTo t).fieldNames = m.fieldNames := by
  simp [fieldNames, upTo, Function.comp_def]

theorem chosenField_congr (h : m.defaultField = m'.defaultField) (field : Option String) :
    m.chosenField field = m'.chosenField field := by
  cases field <;> simp only [chosenField, h]

/-- The names of fields are listed in order, whatever order they are given in. -/
theorem AgreesUpTo.fieldNames_eq (h : m.AgreesUpTo m' t) : m.fieldNames = m'.fieldNames := by
  refine mergeSort_texts_congr ?_
  rw [List.perm_ext_iff_of_nodup (Digraph.nodup_eraseDups _) (Digraph.nodup_eraseDups _)]
  intro name
  simp only [List.mem_eraseDups, List.mem_cons, h.names]

/-! ## Columns -/

variable [Quantity α] {field : String} {asset : Asset}

/-- The items that the history of a field of an asset is made of. -/
def column (m : Market α) (field : String) (asset : Asset) :
    Except ClientError (List (Option Instant × α)) :=
  match m.labels.lookup asset.symbol with
  | none => .error (.assetNotFound asset.symbol)
  | some label =>
    match m.items? field with
    | none => .error (.unknownField field m.fieldNames)
    | some items =>
      match items label with
      | none => .error (.noData field asset.symbol)
      | some l => .ok l

/-- A column is found exactly if the symbol has a label and the field has items of it. -/
theorem column_eq_ok {l : List (Option Instant × α)} : m.column field asset = .ok l ↔
    ∃ label items, m.labels.lookup asset.symbol = some label ∧ m.items? field = some items ∧
      items label = some l := by
  rw [column]
  cases m.labels.lookup asset.symbol with
  | none => simp
  | some label =>
    cases m.items? field with
    | none => simp
    | some items => cases hl : items label <;> simp [hl]

theorem history_eq : m.history field asset = m.column field asset >>= fun l ↦
    (Series.ofCells l).mapError (Sum.elim .dateOutOfRange .series) := by
  rw [history, column]
  cases m.labels.lookup asset.symbol with
  | none => rfl
  | some label =>
    cases m.items? field with
    | none => rfl
    | some items =>
      cases hl : items label with
      | none =>
        simp only [hl]
        rfl
      | some l =>
        simp only [hl, ok_bind]
        rcases Series.ofCells l with (_ | _) | s <;> rfl

theorem history_eq_ok {s : Series α} : m.history field asset = .ok s ↔
    ∃ l, m.column field asset = .ok l ∧ Series.ofCells l = .ok s := by
  simp only [history_eq, bind_eq_ok, mapError_eq_ok]

/-- A column comes from a table of the market. -/
theorem exists_table {l : List (Option Instant × α)} (h : m.column field asset = .ok l) :
    ∃ T ∈ m.tables, ∃ label, T.items? label = some l ∨ T.changeItems? label = some l := by
  obtain ⟨label, items, -, hitems, hl⟩ := column_eq_ok.mp h
  rw [items?] at hitems
  split at hitems
  · next T hT =>
    obtain rfl := Option.some.inj hitems
    exact ⟨T, mem_tables_of_lookup hT, label, .inl hl⟩
  split at hitems
  · obtain rfl := Option.some.inj hitems
    exact ⟨m.prices, prices_mem_tables, label, .inl hl⟩
  split at hitems
  · obtain rfl := Option.some.inj hitems
    exact ⟨m.prices, prices_mem_tables, label, .inr hl⟩
  · cases hitems

/-- The columns of the market up to a moment are the columns up to it. -/
theorem items?_upTo (hm : ∀ T ∈ m.tables, T.dates.Nodup) : (m.upTo t).items? field =
    (m.items? field).map fun items label ↦
      (items label).map (·.filter fun item ↦ Instant.notAfter t item.1) := by
  have hprices : m.prices.dates.Nodup := hm _ prices_mem_tables
  rw [items?, items?, lookup_fields_upTo, prices_upTo]
  cases hT : m.fields.lookup field with
  | some T =>
    exact congrArg some (funext fun label ↦
      Table.items?_upTo (hm T (mem_tables_of_lookup hT)) label)
  | none =>
    simp only [Option.map_none]
    split
    · exact congrArg some (funext fun label ↦ Table.items?_upTo hprices label)
    split
    · exact congrArg some (funext fun label ↦ Table.changeItems?_upTo hprices label)
    · rfl

/-- The columns of a cut market are the columns, cut. -/
theorem column_upTo (hm : ∀ T ∈ m.tables, T.dates.Nodup) : (m.upTo t).column field asset =
    (m.column field asset).map (·.filter fun item ↦ Instant.notAfter t item.1) := by
  rw [column, column, labels_upTo, items?_upTo hm, fieldNames_upTo]
  cases m.labels.lookup asset.symbol with
  | none => rfl
  | some label =>
    cases m.items? field with
    | none => rfl
    | some items => cases hl : items label <;> simp [hl, Except.map]

/-- Markets that agree up to a moment are made of the same columns up to it. -/
theorem AgreesUpTo.column_eq (h : m.AgreesUpTo m' t) (hm : ∀ T ∈ m.tables, T.dates.Nodup)
    (hm' : ∀ T ∈ m'.tables, T.dates.Nodup) :
    (m.upTo t).column field asset = (m'.upTo t).column field asset := by
  have hlabels : m.labels = m'.labels := labels_congr h.prices.labels
  have hprices (label : Scalar) :=
    h.prices.items?_eq (hm _ prices_mem_tables) (hm' _ prices_mem_tables) label
  have hitems : (m.upTo t).items? field = (m'.upTo t).items? field := by
    have hsome : (m.fields.lookup field).isSome = (m'.fields.lookup field).isSome := by
      rw [Bool.eq_iff_iff, Entries.isSome_lookup, Entries.isSome_lookup, h.names]
    rw [items?, items?, lookup_fields_upTo, lookup_fields_upTo, prices_upTo, prices_upTo]
    cases hT : m.fields.lookup field with
    | some T =>
      obtain ⟨T', hT'⟩ : ∃ T', m'.fields.lookup field = some T' :=
        Option.isSome_iff_exists.mp (by rw [← hsome, hT, Option.isSome_some])
      rw [hT']
      exact congrArg some (funext fun label ↦ (h.fields hT hT').items?_eq
        (hm T (mem_tables_of_lookup hT)) (hm' T' (mem_tables_of_lookup hT')) label)
    | none =>
      have hT' : m'.fields.lookup field = none := by
        rw [← Option.isNone_iff_eq_none, ← Option.isSome_eq_false_iff, ← hsome, hT]
        rfl
      have hchanges : (m.prices.upTo t).changeItems? = (m'.prices.upTo t).changeItems? := by
        funext label
        rw [Table.changeItems?, Table.changeItems?, hprices]
      rw [hT']
      simp only [Option.map_none, funext hprices, hchanges]
  rw [column, column, labels_upTo, labels_upTo, fieldNames_upTo, fieldNames_upTo, hlabels, hitems,
    h.fieldNames_eq]

/-! ## Queries -/

omit [Quantity α] in
/-- A cut history shows the same as of any moment up to the cut. -/
theorem asOf_upTo (history : Series α) {u : Instant} (hle : u ≤ t) :
    asOf (history.upTo (some t)) (some u) = asOf history (some u) := by
  have hupTo : (history.upTo (some t)).upTo (some u) = history.upTo (some u) :=
    history.upTo_upTo hle
  by_cases hu : u.InRange
  · rw [asOf_of_inRange _ hu, asOf_of_inRange _ hu, hupTo]
  · rw [asOf, asOf, Instant.fitOf, Instant.fit, if_neg hu]
    rfl

/-- What the whole market answers as of a moment, the market up to a later one does too. -/
theorem query_upTo (hm : ∀ T ∈ m.tables, T.dates.Nodup) {u : Instant} (hle : u ≤ t)
    {field : Option String} {s : Series α} (h : m.query asset (some u) field = .ok s) :
    (m.upTo t).query asset (some u) field = .ok s := by
  obtain ⟨history, hhist, h⟩ := bind_eq_ok.mp h
  obtain ⟨l, hl, hs⟩ := history_eq_ok.mp hhist
  have hcolumn : (m.upTo t).column (m.chosenField field) asset =
      .ok (l.filter fun item ↦ Instant.notAfter t item.1) := by
    rw [column_upTo hm, hl]
    rfl
  refine bind_eq_ok.mpr ⟨history.upTo (some t),
    history_eq_ok.mpr ⟨_, hcolumn, Series.ofCells_filter hs t⟩, ?_⟩
  rwa [asOf_upTo _ hle]

/-- With dates that are sound in every table, each column makes a series. -/
theorem exists_ofCells_column (hm : ∀ T ∈ m.tables, T.IsDated) {l : List (Option Instant × α)}
    (h : m.column field asset = .ok l) : ∃ s, Series.ofCells l = .ok s := by
  obtain ⟨T, hT, label, hl⟩ := exists_table h
  have hitems {items} (h : T.items? label = some items) :
      (items.map (·.1)).Nodup ∧ ∀ d ∈ items.map (·.1), ∃ t, d = some t ∧ t.InRange := by
    obtain ⟨cells, -, rfl⟩ := Option.map_eq_some_iff.mp h
    have hperm := (Series.sortItems_perm (T.dates.zip cells)).map (·.1)
    refine ⟨hperm.nodup_iff.mpr (Table.dates_zip_nodup (hm T hT).nodup cells), fun d hd ↦ ?_⟩
    exact (hm T hT).inRange d ((map_fst_zip_sublist _ _).mem (hperm.mem_iff.mp hd))
  rcases hl with hl | hl
  · obtain ⟨hnodup, hrange⟩ := hitems hl
    exact Series.exists_ofCells hnodup hrange
  · obtain ⟨items, hfound, rfl⟩ := Option.map_eq_some_iff.mp hl
    obtain ⟨hnodup, hrange⟩ := hitems hfound
    have hdates : ((steps items).map fun step ↦ (step.2.1, Quantity.change step.1.2 step.2.2)).map
        (·.1) = (items.map (·.1)).tail := by
      rw [← List.map_tail, ← map_snd_steps, List.map_map, List.map_map]
      rfl
    refine Series.exists_ofCells ?_ ?_
    · exact hdates ▸ hnodup.sublist (List.tail_sublist _)
    · exact fun d hd ↦ hrange d ((List.tail_sublist _).mem (hdates ▸ hd))

/-- In a market whose tables are dated, a query as of a moment does not see the rows after it. -/
theorem query_upTo_self (hm : ∀ T ∈ m.tables, T.IsDated) (ht : t.InRange)
    (field : Option String) :
    (m.upTo t).query asset (some t) field = m.query asset (some t) field := by
  have hnodup : ∀ T ∈ m.tables, T.dates.Nodup := fun T hT ↦ (hm T hT).nodup
  -- a column of dated rows is a series, so only a missing column can fail, which it does either way
  cases hl : m.column (m.chosenField field) asset with
  | ok l =>
    obtain ⟨s, hs⟩ := exists_ofCells_column hm hl
    have hquery : m.query asset (some t) field = .ok (s.upTo (some t)) :=
      bind_eq_ok.mpr ⟨s, history_eq_ok.mpr ⟨l, hl, hs⟩, asOf_of_inRange s ht⟩
    rw [hquery, query_upTo hnodup (Instant.le_refl t) hquery]
  | error e =>
    have hcolumn : (m.upTo t).column (m.chosenField field) asset = .error e := by
      rw [column_upTo hnodup, hl]
      rfl
    have hchosen : (m.upTo t).chosenField field = m.chosenField field := chosenField_congr rfl field
    rw [query, query, history_eq, history_eq, hchosen, hcolumn, hl]

/-- Dated markets that agree up to a moment answer alike as of it. -/
theorem AgreesUpTo.query_eq (h : m.AgreesUpTo m' t) (hm : ∀ T ∈ m.tables, T.IsDated)
    (hm' : ∀ T ∈ m'.tables, T.IsDated) (ht : t.InRange) (asset : Asset) (field : Option String) :
    m.query asset (some t) field = m'.query asset (some t) field := by
  have hcolumn (field : String) : (m.upTo t).column field asset = (m'.upTo t).column field asset :=
    h.column_eq (fun T hT ↦ (hm T hT).nodup) (fun T hT ↦ (hm' T hT).nodup)
  have hchosen : (m.upTo t).chosenField field = (m'.upTo t).chosenField field :=
    chosenField_congr h.defaultField field
  rw [← query_upTo_self hm ht, ← query_upTo_self hm' ht, query, query, history_eq, history_eq,
    hchosen, hcolumn]

end Market

end ScorePortfolio

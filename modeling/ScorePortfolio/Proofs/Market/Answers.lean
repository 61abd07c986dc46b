import ScorePortfolio.Proofs.Market.Frames
import Mathlib

/-!
# The answers of a market

A market answers with what is in its tables.  For a field that has a table, this is the cells of the
column that hold a number, up to the moment of the query and in the order of their dates; for the
changes, it is the quotients of the prices at consecutive dates, less one.  The order in which rows
are given is of no consequence.  A field without a name cannot be asked for: an empty name stands
for the default field.
-/

namespace ScorePortfolio

variable {α : Type}

/-- The series lists the moments and values that are related, in order. -/
structure Series.Lists (s : Series α) (related : Instant → α → Prop) : Prop where
  increasing : s.IsIncreasing
  mem_iff : ∀ t x, (t, x) ∈ s.points ↔ related t x

/-- There is one such list at most. -/
theorem Series.Lists.unique {s s' : Series α} {related : Instant → α → Prop}
    (h : s.Lists related) (h' : s'.Lists related) : s' = s := by
  have hsorted := isIncreasing_iff.mp h.increasing
  have hsorted' := isIncreasing_iff.mp h'.increasing
  have hnodup {s : Series α} (h : s.points.Pairwise (·.1 < ·.1)) : s.points.Nodup :=
    h.imp fun hlt heq ↦ Instant.ne_of_lt hlt (congrArg Prod.fst heq)
  have hperm : s'.points.Perm s.points := by
    rw [List.perm_ext_iff_of_nodup (hnodup hsorted') (hnodup hsorted)]
    intro (t, x)
    rw [h'.mem_iff, h.mem_iff]
  refine eq_of_points (List.Perm.eq_of_pairwise (fun a b _ _ hab hba ↦ ?_) hsorted' hsorted hperm)
  exact absurd (Instant.lt_trans hab hba) (Instant.lt_irrefl a.1)

namespace Market

/-- The table of a field.  The changes have none, since they are computed. -/
def table? (m : Market α) (name : String) : Option (Table α) :=
  if name = closeField then some m.prices else m.fields.lookup name

/-- All tables are frames with dates and with the same labels, which differ in their texts, and no
further field takes the place of the prices or of their changes. -/
structure IsRegular (m : Market α) : Prop where
  dated : ∀ T ∈ m.tables, T.IsDated
  frames : ∀ T ∈ m.tables, T.IsFrame
  labels : ∀ T ∈ m.tables, ∀ label, label ∈ T.columns.map (·.1) ↔
    label ∈ m.prices.columns.map (·.1)
  texts : (m.prices.columns.map (·.1.asText)).Nodup
  names : ∀ name ∈ m.fields.map (·.1), name ≠ closeField ∧ name ≠ changeField

/-- Two markets have the same fields, with the same rows in another order. -/
structure SameRows (m m' : Market α) : Prop where
  prices : m.prices.SameRows m'.prices
  fields : List.Forall₂ (fun a b ↦ a.1 = b.1 ∧ a.2.SameRows b.2) m.fields m'.fields
  defaultField : m.defaultField = m'.defaultField

variable {m m' : Market α} {label : Scalar} {asset : Asset} {name : String}

/-! ## Labels and fields -/

/-- With the texts of the labels distinct, the text of a label leads back to the label. -/
theorem lookup_labels_of_mem (htexts : (m.prices.columns.map (·.1.asText)).Nodup)
    (h : label ∈ m.prices.columns.map (·.1)) : m.labels.lookup label.asText = some label := by
  have hlabels : m.labels = m.prices.columns.map fun c ↦ (c.1.asText, c.1) := by
    refine Entries.ofList_eq_self (List.pairwise_map.mpr ?_)
    exact (List.pairwise_map.mp htexts).imp fun hne ↦ beq_false_of_ne hne
  have hkeys : (m.labels.map (·.1)).Nodup := Entries.nodup_ofList _
  refine Entries.lookup_of_mem hkeys ?_
  obtain ⟨column, hcolumn, rfl⟩ := List.mem_map.mp h
  rw [hlabels]
  exact List.mem_map_of_mem (f := fun c : Scalar × List α ↦ (c.1.asText, c.1)) hcolumn

theorem mem_keys_labels {symbol : String} :
    symbol ∈ m.labels.map (·.1) ↔ symbol ∈ m.prices.columns.map (·.1.asText) := by
  rw [labels, Entries.mem_keys_ofList, List.map_map]
  rfl

theorem mem_fieldNames : name ∈ m.fieldNames ↔
    name = closeField ∨ name = changeField ∨ name ∈ m.fields.map (·.1) := by
  rw [fieldNames, (List.mergeSort_perm _ _).mem_iff, List.mem_eraseDups, List.mem_cons,
    List.mem_cons]

theorem table?_mem_tables {T : Table α} (h : m.table? name = some T) : T ∈ m.tables := by
  rw [table?] at h
  split at h
  · exact Option.some.inj h ▸ prices_mem_tables
  · exact mem_tables_of_lookup h

/-- A field has a table, unless it is that of the changes. -/
theorem exists_table? (h : name ∈ m.fieldNames) (hchange : name ≠ changeField) :
    ∃ T, m.table? name = some T := by
  by_cases hclose : name = closeField
  · exact ⟨m.prices, if_pos hclose⟩
  · have hfield := ((mem_fieldNames.mp h).resolve_left hclose).resolve_left hchange
    obtain ⟨T, hT⟩ := Option.isSome_iff_exists.mp (Entries.isSome_lookup.mpr hfield)
    exact ⟨T, (if_neg hclose).trans hT⟩

theorem IsRegular.table?_change (hm : m.IsRegular) : m.table? changeField = none := by
  have hne : changeField ≠ closeField := by decide
  rw [table?, if_neg hne]
  exact Entries.lookup_eq_none.mpr fun hmem ↦ (hm.names changeField hmem).2 rfl

variable [Quantity α]

theorem items?_eq_none (h : name ∉ m.fieldNames) : m.items? name = none := by
  rw [mem_fieldNames, not_or, not_or] at h
  simp only [items?, Entries.lookup_eq_none.mpr h.2.2, if_neg h.1, if_neg h.2.1]

namespace IsRegular

/-- The items of a named table are those of the table, unless the field is the relative change. -/
theorem items?_table (hm : m.IsRegular) {T : Table α} (h : m.table? name = some T) :
    m.items? name = some T.items? := by
  rw [table?] at h
  split at h
  · next hclose =>
    obtain rfl := Option.some.inj h
    have hnone : m.fields.lookup name = none :=
      Entries.lookup_eq_none.mpr fun hmem ↦ (hm.names name hmem).1 hclose
    simp only [items?, hnone, if_pos hclose]
  · simp only [items?, h]

/-- The items of the relative change are the changes of the prices. -/
theorem items?_change (hm : m.IsRegular) :
    m.items? changeField = some m.prices.changeItems? := by
  have hne : changeField ≠ closeField := by decide
  have hnone := hm.table?_change
  rw [table?, if_neg hne] at hnone
  simp only [items?, hnone, if_neg hne, if_true]

end IsRegular

/-! ## Queries -/

/-- The value of a field for a label at a date. -/
inductive Reports (m : Market α) (label : Scalar) : String → Instant → α → Prop where
  | cell {name T d x} : m.table? name = some T → T.HasCell label d x →
      Quantity.isMissing x = false → Reports m label name d x
  | change {c d p q} : (some c, some d) ∈ steps m.prices.sortedDates →
      m.prices.HasCell label c p → m.prices.HasCell label d q →
      Quantity.isMissing (q / p - Quantity.one) = false →
      Reports m label changeField d (q / p - Quantity.one)

/-- A column lists its items that hold a number, up to the moment of the query. -/
theorem exists_answer (hm : ∀ T ∈ m.tables, T.IsDated) {t : Instant} (ht : t.InRange)
    {field : Option String} {l : List (Option Instant × α)}
    (hl : m.column (m.chosenField field) asset = .ok l) :
    ∃ s, m.query asset (some t) field = .ok s ∧
      s.Lists fun d x ↦ ((some d, x) ∈ l ∧ Quantity.isMissing x = false) ∧ d ≤ t := by
  obtain ⟨history, hhistory⟩ := exists_ofCells_column hm hl
  obtain ⟨hinc, -, hitems⟩ := Series.ofCells_eq_ok.mp hhistory
  refine ⟨history.upTo (some t), ?_, hinc.upTo _, fun d x ↦ ?_⟩
  · rw [query, history_eq_ok.mpr ⟨l, hl, hhistory⟩, ok_bind, asOf_of_inRange history ht]
  · have hpoint : (d, x) ∈ history.points ↔ (some d, x) ∈ l ∧ Quantity.isMissing x = false := by
      have hitem : (some d, x) ∈ history.items ↔ (d, x) ∈ history.points := by
        rw [Series.mem_items]
        constructor
        · rintro ⟨_, heq, hmem⟩
          exact Option.some.inj heq ▸ hmem
        · intro hmem
          exact ⟨d, rfl, hmem⟩
      rw [← hitem, ← hitems, (Series.sortItems_perm _).mem_iff, Series.present, List.mem_filter,
        Bool.not_eq_true']
    rw [hinc.points_upTo, List.mem_filter, decide_eq_true_eq, hpoint]

/-- Among the items of a column, those that hold a number are what the field reports. -/
theorem IsRegular.exists_column (hm : m.IsRegular) (hlabel : label ∈ m.prices.columns.map (·.1))
    (hname : name ∈ m.fieldNames) :
    ∃ l, m.column name ⟨label.asText⟩ = .ok l ∧
      ∀ d x, (some d, x) ∈ l ∧ Quantity.isMissing x = false ↔ m.Reports label name d x := by
  have hlookup := lookup_labels_of_mem hm.texts hlabel
  by_cases hchange : name = changeField
  · obtain ⟨l, hl, hmem⟩ := (hm.frames _ prices_mem_tables).exists_changes
      (hm.dated _ prices_mem_tables) hlabel
    subst hchange
    refine ⟨l, column_eq_ok.mpr ⟨label, _, hlookup, hm.items?_change, hl⟩, fun d x ↦ ?_⟩
    rw [hmem]
    constructor
    · rintro ⟨⟨c, p, q, hstep, hp, hq, rfl⟩, hx⟩
      exact .change hstep hp hq hx
    · rintro (⟨hT, -, -⟩ | ⟨hstep, hp, hq, hx⟩)
      · cases hm.table?_change.symm.trans hT
      · exact ⟨⟨_, _, _, hstep, hp, hq, rfl⟩, hx⟩
  · obtain ⟨T, hT⟩ := exists_table? hname hchange
    have htable := table?_mem_tables hT
    obtain ⟨l, hl, hmem⟩ := (hm.frames T htable).exists_items ((hm.labels T htable label).mpr hlabel)
    refine ⟨l, column_eq_ok.mpr ⟨label, _, hlookup, hm.items?_table hT, hl⟩, fun d x ↦ ?_⟩
    rw [hmem]
    constructor
    · rintro ⟨hcell, hx⟩
      exact .cell hT hcell hx
    · rintro (⟨hT', hcell, hx⟩ | -)
      · obtain rfl := Option.some.inj (hT.symm.trans hT')
        exact ⟨hcell, hx⟩
      · exact absurd rfl hchange

/-- An asset that has no price column is not found, whatever the field and the moment. -/
theorem query_of_unknown (h : asset.symbol ∉ m.prices.columns.map (·.1.asText))
    (t : Option Instant) (field : Option String) :
    m.query asset t field = .error (.assetNotFound asset.symbol) := by
  rw [← mem_keys_labels, ← Entries.lookup_eq_none] at h
  simp only [query, history, h]
  rfl

/-- A field that is none of the market is reported with the fields there are. -/
theorem query_of_unknownField (h : asset.symbol ∈ m.prices.columns.map (·.1.asText))
    (t : Option Instant) {field : Option String} (hfield : m.chosenField field ∉ m.fieldNames) :
    m.query asset t field = .error (.unknownField (m.chosenField field) m.fieldNames) := by
  rw [← mem_keys_labels, ← Entries.isSome_lookup] at h
  obtain ⟨label, hlabel⟩ := Option.isSome_iff_exists.mp h
  simp only [query, history, hlabel, items?_eq_none hfield]
  rfl

/-! ## Rows in another order -/

omit [Quantity α] in
/-- Markets with the same rows agree up to any moment. -/
theorem SameRows.agreesUpTo (h : m.SameRows m') (t : Instant) : m.AgreesUpTo m' t := by
  have hfields := h.fields
  refine ⟨h.prices.agreesUpTo t, fun name ↦ ?_, ?_, h.defaultField⟩
  · have hnames : m.fields.map (·.1) = m'.fields.map (·.1) := by
      generalize m.fields = fields, m'.fields = fields' at hfields
      induction hfields with
      | nil => rfl
      | cons hfield _ ih => rw [List.map_cons, List.map_cons, hfield.1, ih]
    rw [hnames]
  · intro name T T' hT hT'
    generalize m.fields = fields, m'.fields = fields' at hfields hT hT'
    induction hfields with
    | nil => cases hT
    | @cons a b _ _ hfield _ ih =>
      obtain ⟨other, A⟩ := a
      obtain ⟨_, B⟩ := b
      obtain ⟨rfl, hrows⟩ := hfield
      rw [List.lookup_cons] at hT hT'
      split at hT
      · next hname =>
        rw [hname] at hT'
        obtain rfl := Option.some.inj hT
        obtain rfl := Option.some.inj hT'
        exact hrows.agreesUpTo t
      · next hname =>
        rw [hname] at hT'
        exact ih hT hT'

omit [Quantity α] in
/-- The dates of the tables are as sound after the rows are rearranged as before. -/
theorem SameRows.isDated (h : m.SameRows m') (hm : ∀ T ∈ m.tables, T.IsDated) :
    ∀ T ∈ m'.tables, T.IsDated := by
  refine List.forall_mem_cons.mpr ⟨h.prices.isDated (hm _ prices_mem_tables), ?_⟩
  have hm : ∀ T ∈ m.fields.map (·.2), T.IsDated := fun T hT ↦ hm T (List.mem_cons_of_mem _ hT)
  have hfields := h.fields
  generalize m.fields = fields, m'.fields = fields' at hfields hm
  induction hfields with
  | nil => exact fun T hT ↦ hm T hT
  | cons hfield _ ih =>
    rw [List.map_cons, List.forall_mem_cons] at hm ⊢
    exact ⟨hfield.2.isDated hm.1, ih hm.2⟩

/-! ## All answers -/

/-- What a regular market answers.  The field that is read is the one that is named, and the default
field if none or the empty one is.  If the market has the asset and the field, the answer is the one
list of what the field reports up to the moment; an asset that it does not have comes before a field
that it does not have; and the order of the rows is of no consequence. -/
theorem IsRegular.answers (hm : m.IsRegular) :
    (∀ name, m.chosenField (some name) = if name = "" then m.defaultField else name) ∧
    m.chosenField none = m.defaultField ∧
    (∀ label ∈ m.prices.columns.map (·.1), ∀ field, m.chosenField field ∈ m.fieldNames →
      ∀ t : Instant, t.InRange → ∃ s, m.query ⟨label.asText⟩ (some t) field = .ok s ∧
        ∀ s', s'.Lists (fun d x ↦ m.Reports label (m.chosenField field) d x ∧ d ≤ t) ↔ s' = s) ∧
    (∀ asset : Asset, asset.symbol ∉ m.prices.columns.map (·.1.asText) → ∀ t field,
      m.query asset t field = .error (.assetNotFound asset.symbol)) ∧
    (∀ asset : Asset, asset.symbol ∈ m.prices.columns.map (·.1.asText) → ∀ t field,
      m.chosenField field ∉ m.fieldNames →
        m.query asset t field = .error (.unknownField (m.chosenField field) m.fieldNames)) ∧
    ∀ m', m.SameRows m' → ∀ (asset : Asset) (t : Instant), t.InRange → ∀ field,
      m'.query asset (some t) field = m.query asset (some t) field := by
  refine ⟨fun _ ↦ rfl, rfl, ?_, fun _ h t field ↦ query_of_unknown h t field,
    fun _ h t _ hfield ↦ query_of_unknownField h t hfield, ?_⟩
  · intro label hlabel field hfield t ht
    obtain ⟨l, hl, hreports⟩ := hm.exists_column hlabel hfield
    obtain ⟨s, hs, hinc, hmem⟩ := exists_answer hm.dated ht hl
    have hlists : s.Lists fun d x ↦ m.Reports label (m.chosenField field) d x ∧ d ≤ t := by
      refine ⟨hinc, fun d x ↦ ?_⟩
      rw [hmem, hreports]
    refine ⟨s, hs, fun s' ↦ ⟨hlists.unique, ?_⟩⟩
    rintro rfl
    exact hlists
  · intro m' hrows asset t ht field
    exact ((hrows.agreesUpTo t).query_eq hm.dated (hrows.isDated hm.dated) ht asset field).symm

end Market

/-- Prices of an asset on three days, the last one first, and a further field on two of them. -/
def threeDays (name : String) : Market Rat where
  prices := ⟨[some ⟨3⟩, some ⟨1⟩, some ⟨2⟩], [(.text "A", [12, 8, 10])]⟩
  fields := [(name, ⟨[some ⟨2⟩, some ⟨1⟩], [(.text "A", [5, 6])]⟩)]
  defaultField := closeField

theorem threeDays_isRegular {name : String} (hname : name ≠ closeField ∧ name ≠ changeField) :
    (threeDays name).IsRegular where
  dated := by
    simp only [Market.tables, threeDays, List.map_cons, List.map_nil, List.forall_mem_cons]
    refine ⟨⟨by decide, ?_⟩, ⟨by decide, ?_⟩, nofun⟩
    · simp only [List.forall_mem_cons]
      exact ⟨⟨⟨3⟩, rfl, by decide⟩, ⟨⟨1⟩, rfl, by decide⟩, ⟨⟨2⟩, rfl, by decide⟩, nofun⟩
    · simp only [List.forall_mem_cons]
      exact ⟨⟨⟨2⟩, rfl, by decide⟩, ⟨⟨1⟩, rfl, by decide⟩, nofun⟩
  frames := by
    intro T hT
    have hmade : Table.ofColumns? T.dates T.columns = some T := by
      rcases List.mem_cons.mp hT with rfl | hT
      · rfl
      · rw [List.mem_singleton.mp hT]
        rfl
    exact Table.isFrame_of_ofColumns? hmade
  labels := by
    intro T hT label
    rcases List.mem_cons.mp hT with rfl | hT
    · exact Iff.rfl
    · rw [List.mem_singleton.mp hT]
      exact Iff.rfl
  texts := List.nodup_singleton _
  names := fun other hother ↦ List.mem_singleton.mp hother ▸ hname

/-- The changes lead from day to day, although the last one is given first. -/
theorem threeDays_query : (threeDays "volume").IsRegular ∧
    ∃ s, (threeDays "volume").query ⟨"A"⟩ (some ⟨3⟩) (some changeField) = .ok s ∧
      s = ⟨[(⟨2⟩, 1 / 4), (⟨3⟩, 1 / 5)]⟩ ∧
      ∀ s', s'.Lists (fun d x ↦ (threeDays "volume").Reports (.text "A") changeField d x ∧
        d ≤ ⟨3⟩) ↔ s' = s := by
  have hregular : (threeDays "volume").IsRegular := threeDays_isRegular (by decide)
  have hfield : changeField ∈ (threeDays "volume").fieldNames :=
    Market.mem_fieldNames.mpr (.inr (.inl rfl))
  have hvalue : (threeDays "volume").query ⟨"A"⟩ (some ⟨3⟩) (some changeField) =
      .ok ⟨[(⟨2⟩, 1 / 4), (⟨3⟩, 1 / 5)]⟩ := by cbv
  obtain ⟨-, -, hquery, -⟩ := hregular.answers
  obtain ⟨s, hs, hlists⟩ :=
    hquery (.text "A") List.mem_cons_self (some changeField) hfield ⟨3⟩ (by decide)
  exact ⟨hregular, s, hs, Except.ok.inj (hs.symm.trans hvalue), hlists⟩

/-- A field without a name is in the market, but asking for it gives the prices. -/
theorem threeDays_nameless : (threeDays "").IsRegular ∧ "" ∈ (threeDays "").fieldNames ∧
    (threeDays "").query ⟨"A"⟩ (some ⟨3⟩) (some "") =
      .ok ⟨[(⟨1⟩, 8), (⟨2⟩, 10), (⟨3⟩, 12)]⟩ ∧
    ¬ ∃ s, (threeDays "").query ⟨"A"⟩ (some ⟨3⟩) (some "") = .ok s ∧
      s.Lists fun d x ↦ (threeDays "").Reports (.text "A") "" d x ∧ d ≤ ⟨3⟩ := by
  have hquery : (threeDays "").query ⟨"A"⟩ (some ⟨3⟩) (some "") =
      .ok ⟨[(⟨1⟩, 8), (⟨2⟩, 10), (⟨3⟩, 12)]⟩ := by cbv
  refine ⟨threeDays_isRegular (by decide),
    Market.mem_fieldNames.mpr (.inr (.inr List.mem_cons_self)), hquery, ?_⟩
  rintro ⟨s, hs, hlists⟩
  obtain rfl := Except.ok.inj (hs.symm.trans hquery)
  -- the field has a six on the first day, which is not among the prices
  have hsix : (threeDays "").Reports (.text "A") "" ⟨1⟩ 6 :=
    .cell (T := ⟨[some ⟨2⟩, some ⟨1⟩], [(.text "A", [5, 6])]⟩) rfl
      ⟨[5, 6], List.mem_cons_self, List.mem_cons_of_mem _ List.mem_cons_self⟩ rfl
  have hmem := (hlists.mem_iff ⟨1⟩ 6).mpr ⟨hsix, by decide⟩
  revert hmem
  decide

end ScorePortfolio

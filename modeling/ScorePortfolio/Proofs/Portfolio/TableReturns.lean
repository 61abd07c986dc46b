import ScorePortfolio.Portfolio.Backtest
import ScorePortfolio.Portfolio.TableReturns
import ScorePortfolio.Proofs.Market.Changes
import ScorePortfolio.Proofs.Market.Days
import ScorePortfolio.Proofs.Market.Universe
import ScorePortfolio.Proofs.Portfolio.Allocation
import ScorePortfolio.Proofs.Portfolio.FiniteWeights
import ScorePortfolio.Proofs.Portfolio.Replay

/-!
# Returns from tables and from replays

The returns of a replay are the returns that its table of weights has under the table of the prices.
A replay asks for the change of each asset at a day and adds up; the tables are shifted, aligned by
their dates and added up row by row.  Both pair the weights of one moment with the changes at the
next, each change leading there from the row of prices before, wherever the moments lie among the
dates of the prices.
-/

namespace ScorePortfolio

variable {α : Type}

/-! ## Changes by row -/

namespace TableReturns

variable [Quantity α]

/-- The change of a row is that from the row above. -/
theorem getElem?_changes_succ (cells : List α) (i : ℕ) : (changes cells)[i + 1]? =
    (steps cells)[i]?.map fun (x, y) ↦ Quantity.present? (Quantity.change x y) := by
  cases cells with
  | nil => rfl
  | cons x cells => rw [changes, List.getElem?_cons_succ, List.getElem?_map]

/-- The changes between items in order stand in the rows of their dates. -/
theorem exists_cells_of_changeItems? {T : Table α} (hasc : T.IsAscending) {label : Scalar}
    {l : List (Option Instant × α)} (hl : T.changeItems? label = some l) :
    ∃ cells, T.cells? label = some cells ∧ ∀ d x, (d, x) ∈ l →
      (d, Quantity.present? x) ∈ T.dates.zip (changes cells) ∧
        ∃ step ∈ steps cells, x = Quantity.change step.1 step.2 := by
  rw [Table.changeItems?, hasc.items?_eq, Option.map_map, Option.map_eq_some_iff] at hl
  obtain ⟨cells, hcells, rfl⟩ := hl
  refine ⟨cells, hcells, fun d x hmem ↦ ?_⟩
  obtain ⟨⟨⟨d', p⟩, ⟨_, q⟩⟩, hstep, heq⟩ := List.mem_map.mp hmem
  obtain ⟨rfl, rfl⟩ := Prod.mk.inj heq
  obtain ⟨i, hi, hi'⟩ := mem_steps.mp hstep
  rw [List.getElem?_zip_eq_some] at hi hi'
  have hcell : (p, q) ∈ steps cells := mem_steps.mpr ⟨i, hi.2, hi'.2⟩
  refine ⟨List.mem_iff_getElem?.mpr ⟨i + 1, List.getElem?_zip_eq_some.mpr ⟨hi'.1, ?_⟩⟩, (p, q),
    hcell, rfl⟩
  have hstep : (steps cells)[i]? = some (p, q) := by
    rw [steps, List.getElem?_zip_eq_some, List.getElem?_tail]
    exact ⟨hi.2, hi'.2⟩
  rw [getElem?_changes_succ, hstep]
  rfl

/-- The changes at given dates are those of the rows of these dates. -/
theorem getElem?_changesAt {prices : Table α} (hnodup : prices.dates.Nodup)
    {dates : List (Option Instant)} {cells : List α} {i : ℕ} {d : Option Instant} {x : Option α}
    (hd : dates[i]? = some d) (hx : (d, x) ∈ prices.dates.zip (changes cells)) :
    (changesAt prices dates cells)[i]? = some x := by
  rw [changesAt]
  split
  · next heq =>
    subst heq
    obtain ⟨j, hj⟩ := List.mem_iff_getElem?.mp hx
    obtain ⟨hj, hx⟩ := List.getElem?_zip_eq_some.mp hj
    obtain ⟨hi, hd⟩ := List.getElem?_eq_some_iff.mp hd
    obtain ⟨hj, hd'⟩ := List.getElem?_eq_some_iff.mp hj
    obtain rfl : i = j := hnodup.getElem_inj_iff.mp (hd.trans hd'.symm)
    exact hx
  · have hlookup := Entries.lookup_of_mem (hnodup.sublist (map_fst_zip_sublist _ _)) hx
    rw [List.getElem?_map, hd, Option.map_some, hlookup]
    rfl

/-! ## Sums of contributions -/

/-- A row without gaps sums to the sum of its products. -/
theorem rowSum_map_some {products : List α} (h : products ≠ []) :
    rowSum (products.map some) = some (Quantity.sum products) := by
  rw [rowSum, List.filterMap_map, Function.id_comp, List.filterMap_some]
  split
  · exact absurd rfl h
  · rfl

theorem getElem?_contributions {weights : List α} {changes : List (Option α)} {i : ℕ} {w x : α}
    (hw : weights[i]? = some w) (hx : changes[i + 1]? = some (some x)) :
    (contributions weights changes)[i]? = some (Quantity.present? (w * x)) := by
  have hzip : (weights.zip changes.tail)[i]? = some (w, some x) := by
    rw [List.getElem?_zip_eq_some, List.getElem?_tail]
    exact ⟨hw, hx⟩
  rw [contributions, List.getElem?_map, hzip]
  rfl

end TableReturns

/-- The return of a portfolio is the sum of the products of weights and changes. -/
theorem Client.portfolioReturn_eq_ok [Quantity α] {c : Client α} {t : Instant}
    {weights : List (Asset × α)} {r : α} (h : c.portfolioReturn t weights = .ok r) :
    ∃ products, List.Forall₂ (fun e y ↦ ∃ x, c.changeAt t e.1 = .ok x ∧ y = e.2 * x)
      weights products ∧ r = Quantity.sum products := by
  rw [portfolioReturn_eq, map_eq_ok] at h
  obtain ⟨changes, hchanges, rfl⟩ := h
  refine ⟨_, ?_, rfl⟩
  rw [mapM_eq_ok] at hchanges
  induction hchanges with
  | nil => exact .nil
  | cons he _ ih => exact .cons ⟨_, he, rfl⟩ ih

namespace Client

variable [Quantity α] {c : Client α} {history : History α} {r : Series α}
  (h : c.returns history = .ok r)

include h

/-- Returns are dated from the second moment on. -/
theorem index_returns : r.index = (history.map (·.1)).tail := by
  have hindex : List.Forall₂ (· = ·) (r.points.map (·.1)) ((steps history).map (·.2.1)) := by
    rw [List.forall₂_map_left_iff, List.forall₂_map_right_iff]
    exact ((returns_eq_ok.mp h).1.imp fun _ _ hp ↦ hp.1).flip
  rw [List.forall₂_eq_eq_eq] at hindex
  rw [Series.index, hindex, ← List.map_tail, ← map_snd_steps history, List.map_map]
  rfl

theorem dates_returns : (history.map fun (t, _) ↦ some t).tail = r.points.map fun p ↦ some p.1 := by
  calc (history.map fun (t, _) ↦ some t).tail
      _ = ((history.map (·.1)).tail).map some := by
        rw [← List.map_tail, ← List.map_tail, List.map_map]
        rfl
      _ = r.points.map fun p ↦ some p.1 := by
        rw [← index_returns h, Series.index, List.map_map]
        rfl

theorem length_returns : r.points.length = history.length - 1 := by
  simpa [Series.index] using congrArg List.length (index_returns h)

/-- The return at a position is earned from the moment before. -/
theorem exists_step_of_returns {i : ℕ} {p : Instant × α} (hp : r.points[i]? = some p) :
    ∃ before after, history[i]? = some before ∧ history[i + 1]? = some after ∧ p.1 = after.1 ∧
      c.portfolioReturn after.1 before.2.weights = .ok p.2 := by
  have hearned := (returns_eq_ok.mp h).1
  obtain ⟨hi, rfl⟩ := List.getElem?_eq_some_iff.mp hp
  have hi' : i < (steps history).length := hearned.length_eq ▸ hi
  have hstep : (steps history)[i]? = some (steps history)[i] := List.getElem?_eq_getElem hi'
  have hpair := List.getElem?_zip_eq_some.mp hstep
  rw [List.getElem?_tail] at hpair
  exact ⟨_, _, hpair.1, hpair.2, hearned.get hi' hi⟩

end Client

/-! ## The table of a history -/

/-- Where nothing is filtered out, places are kept. -/
theorem getElem?_filterMap_of_isSome {β γ : Type} {f : β → Option γ} {l : List β}
    (h : ∀ b ∈ l, (f b).isSome = true) (i : ℕ) : (l.filterMap f)[i]? = l[i]?.bind f := by
  induction l generalizing i with
  | nil => rfl
  | cons b l ih =>
    rw [List.forall_mem_cons] at h
    obtain ⟨c, hc⟩ := Option.isSome_iff_exists.mp h.1
    rw [List.filterMap_cons_some hc]
    cases i with
    | zero => exact hc.symm
    | succ i => exact ih h.2 i

/-- Every allocation gives weights to the same assets. -/
def History.IsOver (history : History α) (assets : List Asset) : Prop :=
  ∀ e ∈ history, e.2.weights.map (·.1) = assets

namespace History.IsOver

variable {history : History α} {assets : List Asset} (h : history.IsOver assets)

include h

/-- The weights of an asset stand in the order of the history. -/
theorem getElem?_weights (hnodup : assets.Nodup) {i : ℕ} {e : Instant × Allocation α}
    (he : history[i]? = some e) {asset : Asset} {w : α} (hw : (asset, w) ∈ e.2.weights) :
    (history.filterMap fun (_, a) ↦ a.weight? asset)[i]? = some w := by
  have hmem : e ∈ history := List.mem_of_getElem? he
  have hkey (e' : Instant × Allocation α) (he' : e' ∈ history) :
      (e'.2.weight? asset).isSome = true := by
    rw [Allocation.weight?, Entries.isSome_lookup, h e' he', ← h e hmem]
    exact List.mem_map_of_mem hw
  rw [getElem?_filterMap_of_isSome hkey, he]
  exact Entries.lookup_of_mem (h e hmem ▸ hnodup) hw

/-- Over fixed assets the table of a history has one column for each of them. -/
theorem table_eq (hne : history ≠ []) : Backtest.table history =
    ⟨history.map fun (t, _) ↦ some t, assets.map fun asset ↦
      (.text asset.symbol, history.filterMap fun (_, a) ↦ a.weight? asset)⟩ := by
  obtain ⟨e, rest, rfl⟩ := List.exists_cons_of_ne_nil hne
  rw [← h e List.mem_cons_self]
  rfl

end History.IsOver

namespace TableReturns

variable [Quantity α]

theorem mapM_column {prices : Table α} {assets : List Asset}
    (hcells : ∀ asset ∈ assets, ∃ cells, prices.cells? (.text asset.symbol) = some cells)
    (dates : List (Option Instant)) (weights : Asset → List α) :
    (assets.map fun asset ↦ (Scalar.text asset.symbol, weights asset)).mapM
        (fun (label, cells) ↦ column prices dates label cells) =
      .ok (assets.map fun asset ↦ contributions (weights asset)
        (changesAt prices dates ((prices.cells? (.text asset.symbol)).getD []))) := by
  rw [mapM_eq_ok, List.forall₂_map_left_iff, List.forall₂_map_right_iff, List.forall₂_same]
  intro asset hasset
  obtain ⟨cells, hcells⟩ := hcells asset hasset
  simp only [column, hcells, Option.getD_some]

/-- The contributions of an asset to the returns of a history. -/
def contributionsOf (prices : Table α) (history : History α) (asset : Asset) : List (Option α) :=
  contributions (history.filterMap fun (_, a) ↦ a.weight? asset)
    (changesAt prices (history.map fun (t, _) ↦ some t)
      ((prices.cells? (.text asset.symbol)).getD []))

/-- Over distinct price dates the returns of the table of a history are the row sums of the weighted
changes. -/
theorem ofTables_table {prices : Table α} (hdates : prices.dates.Nodup) {history : History α}
    (hne : history ≠ []) {assets : List Asset} (hover : history.IsOver assets)
    (hcells : ∀ asset ∈ assets, ∃ cells, prices.cells? (.text asset.symbol) = some cells) :
    ofTables (Backtest.table history) prices =
      .ok ((history.map fun (t, _) ↦ some t).tail.zip
        ((List.range (history.length - 1)).map fun i ↦
          rowSum (assets.map fun asset ↦ ((contributionsOf prices history asset)[i]?).join))) := by
  rw [hover.table_eq hne, ofTables, if_neg (by simp [hdates])]
  refine bind_eq_ok.mpr ⟨_, bind_eq_ok.mpr ⟨_, rfl, mapM_column hcells _ _⟩, ?_⟩
  simp only [List.length_map, List.map_map]
  rfl

/-- The contributions of a day add up to the return of a replay if they are what it adds up. -/
theorem rowSum_of_portfolioReturn {c : Client α} {prices : Table α} {history : History α}
    {assets : List Asset} (hover : history.IsOver assets) {i : ℕ}
    {before : Instant × Allocation α} (hbefore : history[i]? = some before)
    (hne : before.2.weights ≠ []) {t : Instant}
    (hadds : ∀ asset w x, (asset, w) ∈ before.2.weights → c.changeAt t asset = .ok x →
      ((contributionsOf prices history asset)[i]?).join = some (w * x))
    {r : α} (hr : c.portfolioReturn t before.2.weights = .ok r) :
    rowSum (assets.map fun asset ↦ ((contributionsOf prices history asset)[i]?).join) =
      some r := by
  obtain ⟨products, hproducts, rfl⟩ := Client.portfolioReturn_eq_ok hr
  have hcontributed : before.2.weights.map (fun e ↦
      ((contributionsOf prices history e.1)[i]?).join) = products.map some := by
    rw [← List.forall₂_eq_eq_eq, List.forall₂_map_left_iff, List.forall₂_map_right_iff]
    have hmem : ∀ e ∈ before.2.weights, e ∈ before.2.weights := fun _ ↦ id
    refine ((List.forall₂_and_left _ _).mpr ⟨hmem, hproducts⟩).imp ?_
    rintro ⟨asset, w⟩ _ ⟨hw, x, hx, rfl⟩
    exact hadds asset w x hw hx
  have hproducts : products ≠ [] := by
    rintro rfl
    exact hne (List.map_eq_nil_iff.mp hcontributed)
  rw [← hover before (List.mem_of_getElem? hbefore), List.map_map]
  exact (congrArg rowSum hcontributed).trans (rowSum_map_some hproducts)

end TableReturns

/-! ## Tables of a market -/

/-- The changes of a market over the doubles are those of its table of prices, and are numbers. -/
structure Market.TablesChanges (m : Market Float) : Prop where
  /-- The columns are labelled by texts. -/
  labels : m.prices.HasTextLabels
  /-- The days ascend. -/
  dates : m.prices.IsAscending
  /-- No further field takes the place of the changes. -/
  changes : m.fields.lookup changeField = none
  /-- The quotients of consecutive prices are finite. -/
  quotients : ∀ column ∈ m.prices.columns, ∀ step ∈ steps column.2,
    (step.2 / step.1).isFinite = true

namespace TableReturns

variable {m : Market Float} (hm : m.TablesChanges) {history : History Float}
  (hover : history.IsOver m.client.sortedAssets) {i : ℕ} {before after : Instant × Allocation Float}
  (hbefore : history[i]? = some before) (hafter : history[i + 1]? = some after)

include hm hover hbefore hafter

/-- The contribution of an asset is the product that the replay adds for it. -/
theorem getElem?_contributionsOf {asset : Asset} {w x : Float}
    (hw : (asset, w) ∈ before.2.weights) (hfinite : w.isFinite = true)
    (hx : m.client.changeAt after.1 asset = .ok x) :
    (contributionsOf m.prices history asset)[i]? = some (some (w * x)) := by
  obtain ⟨label, l, hlabel, hl, hitem⟩ := Market.mem_changes hm.changes hx
  obtain rfl := Market.label_eq_text hm.labels hlabel
  obtain ⟨cells, hcells, hrows⟩ := exists_cells_of_changeItems? hm.dates hl
  obtain ⟨hrow, step, hstep, rfl⟩ := hrows _ _ hitem
  obtain ⟨_, hcolumn⟩ := Table.mem_columns_of_cells? hcells
  have hchange := Quantity.isFinite_change (hm.quotients _ hcolumn step hstep)
  have hassets : m.client.sortedAssets.Nodup := (Asset.sort_perm _).nodup_iff.mpr m.nodup_assets
  have hdate : (history.map fun (t, _) ↦ some t)[i + 1]? = some (some after.1) := by
    rw [List.getElem?_map, hafter]
    rfl
  rw [Quantity.present?_of_isFinite hchange] at hrow
  rw [contributionsOf, hcells, Option.getD_some,
    getElem?_contributions (hover.getElem?_weights hassets hbefore hw)
      (getElem?_changesAt hm.dates.nodup hdate hrow),
    Quantity.present?_mul hfinite hchange]

/-- The row of a day adds up to the return of the replay. -/
theorem rowSum_contributionsOf (hne : before.2.weights ≠ [])
    (hfinite : ∀ e ∈ before.2.weights, e.2.isFinite = true) {r : Float}
    (hr : m.client.portfolioReturn after.1 before.2.weights = .ok r) :
    rowSum (m.client.sortedAssets.map fun asset ↦
      ((contributionsOf m.prices history asset)[i]?).join) = some r := by
  refine rowSum_of_portfolioReturn hover hbefore hne (fun asset w x hw hx ↦ ?_) hr
  have hw' : w.isFinite = true := hfinite (asset, w) hw
  rw [getElem?_contributionsOf hm hover hbefore hafter hw hw' hx, Option.join_some]

end TableReturns

/-- The table of the weights of a replay has, under the table of the prices, the returns of the
replay: at each moment but the first, and the same doubles. -/
theorem Graph.ofTables_of_replay (g : Graph) {m : Market Float} (hm : m.TablesChanges)
    {settings : Settings} {ts : List Instant} {history : History Float} {returns : Series Float}
    (hhistory : g.history m.client settings (ts.map some) = .ok history)
    (hreturns : m.client.performance (history.map fun (t, a) ↦ (some t, a)) = .ok returns) :
    returns.index = ts.tail ∧
      TableReturns.ofTables (Backtest.table history) m.prices =
        .ok (returns.points.map fun (t, x) ↦ (some t, some x)) := by
  obtain ⟨hmoments, hne, -, hallocate⟩ := Graph.history_eq_ok.mp hhistory
  obtain ⟨-, -, hreturns⟩ := Client.performance_eq_ok.mp hreturns
  obtain rfl : ts = history.map (·.1) := by
    refine List.map_injective_iff.mpr (Option.some_injective _) ?_
    rw [hmoments, List.map_map]
    rfl
  have hover : history.IsOver m.client.sortedAssets := fun e he ↦
    Graph.assets_of_allocate m.nodup_assets (hallocate e he)
  have hcells : ∀ asset ∈ m.client.sortedAssets, ∃ cells,
      m.prices.cells? (.text asset.symbol) = some cells := fun asset hasset ↦
    Market.exists_cells hm.labels ((Asset.sort_perm _).mem_iff.mp hasset)
  have hrows : (List.range (history.length - 1)).map (fun i ↦
      TableReturns.rowSum (m.client.sortedAssets.map fun asset ↦
        ((TableReturns.contributionsOf m.prices history asset)[i]?).join)) =
      returns.points.map fun p ↦ some p.2 := by
    refine List.ext_getElem (by simp [Client.length_returns hreturns]) fun i _ hi ↦ ?_
    rw [List.getElem_map, List.getElem_map, List.getElem_range]
    rw [List.length_map] at hi
    obtain ⟨before, after, hbefore, hafter, -, hr⟩ :=
      Client.exists_step_of_returns hreturns (List.getElem?_eq_getElem hi)
    have ha := hallocate before (List.mem_of_getElem? hbefore)
    exact TableReturns.rowSum_contributionsOf hm hover hbefore hafter (Graph.weights_ne_nil ha)
      (Graph.isFinite_of_allocate ha) hr
  refine ⟨Client.index_returns hreturns, ?_⟩
  rw [TableReturns.ofTables_table hm.dates.nodup hne hover hcells, hrows,
    Client.dates_returns hreturns, List.zip_map']

/-! ## Six days with gaps -/

/-- The days of the prices. -/
def gappedDays : List Instant := [⟨1⟩, ⟨2⟩, ⟨3⟩, ⟨5⟩, ⟨6⟩, ⟨8⟩]

/-- The prices of two assets on these days. -/
def gappedCells : List (String × List Float) :=
  [("A", [7, 16, 16, 8, 12, 3]), ("B", [13, 16, 16, 16, 20, 15])]

/-- The market of these prices. -/
def gappedMarket : Market Float where
  prices := ⟨gappedDays.map some, gappedCells.map fun (symbol, cells) ↦ (.text symbol, cells)⟩
  fields := []
  defaultField := closeField

theorem gappedMarket_tablesChanges : gappedMarket.TablesChanges where
  labels := by simp [Table.HasTextLabels, gappedMarket, gappedCells]
  dates := ⟨gappedDays, rfl, by decide⟩
  changes := rfl
  quotients := by decide

/-- The histories of the market: its columns as they stand. -/
def gappedCache : Market.Cache Float :=
  gappedCells.flatMap fun (symbol, cells) ↦
    [((closeField, symbol), ⟨gappedDays.zip cells⟩),
     ((changeField, symbol), ⟨gappedDays.tail.zip ((steps cells).map fun (x, y) ↦
        Quantity.change x y)⟩)]

theorem gappedMarket_holds : gappedMarket.Holds gappedCache := by
  have hcache : Market.dailyCache gappedDays gappedCells = gappedCache := by decide +kernel
  rw [← hcache]
  exact Market.ofDays_holds (by decide) (by decide) (by decide)

/-- The allocations of the crossover at three moments, the first between two days. -/
def gappedHistory : History Float := [
  (⟨4⟩, ⟨some ⟨4⟩, [(⟨"A"⟩, 0.75), (⟨"B"⟩, 0.25)]⟩),
  (⟨6⟩, ⟨some ⟨6⟩, [(⟨"A"⟩, 0), (⟨"B"⟩, 1)]⟩),
  (⟨8⟩, ⟨some ⟨8⟩, [(⟨"A"⟩, 0), (⟨"B"⟩, 1)]⟩)]

theorem gappedMarket_history : crossoverGraph.history gappedMarket.client .standard
    ([⟨4⟩, ⟨6⟩, ⟨8⟩].map some) = .ok gappedHistory := by
  -- sorting does not compute, so the histories are read from the cache and the assets as they stand
  have hweights : ∀ e ∈ gappedHistory, ⟨some e.1, e.2.weights⟩ = e.2 ∧
      e.2.weights.map (·.1) = [⟨"A"⟩, ⟨"B"⟩] ∧
      crossoverGraph.weightsOver (gappedMarket.cachedClient gappedCache) .standard (some e.1)
        [⟨"A"⟩, ⟨"B"⟩] = .ok e.2.weights := by
    decide +kernel
  refine Graph.history_eq_ok.mpr ⟨rfl, List.cons_ne_nil _ _, by decide, fun e he ↦ ?_⟩
  rw [← gappedMarket_holds.cachedClient_eq]
  obtain ⟨he, hkeys, hweights⟩ := hweights e he
  exact he ▸ Graph.allocate_of_weightsOver rfl (by decide) hkeys hweights

theorem gappedMarket_performance : gappedMarket.client.performance
    (gappedHistory.map fun (t, a) ↦ (some t, a)) = .ok ⟨[(⟨6⟩, 0.4375), (⟨8⟩, -0.25)]⟩ := by
  rw [← gappedMarket_holds.cachedClient_eq]
  decide +kernel

/-- The moments leave out a day of the prices, and the first of them is none. -/
theorem gappedMarket_tableReturns :
    TableReturns.ofTables (Backtest.table gappedHistory) gappedMarket.prices =
      .ok [(some ⟨6⟩, some 0.4375), (some ⟨8⟩, some (-0.25))] :=
  (crossoverGraph.ofTables_of_replay gappedMarket_tablesChanges gappedMarket_history
    gappedMarket_performance).2

end ScorePortfolio

import ScorePortfolio.Proofs.Portfolio.Metrics
import ScorePortfolio.Proofs.Portfolio.SelfFinancing
import ScorePortfolio.Proofs.Portfolio.TableReturns
import Mathlib.Algebra.Order.BigOperators.GroupWithZero.List
import Mathlib.Tactic.Linarith

/-!
# Returns within the market

The weights of an allocation are not negative and sum to one, so in exact arithmetic a return lies
between the smallest and the largest price change of its day.  Between positive prices a change is
more than the loss of everything, hence so is every return and what the returns add up to, and the
figures of a replay have an annual return.
-/

namespace ScorePortfolio

/-! ## Weighted sums -/

/-- A weighted sum lies between the bounds of what is summed up, by the total weight. -/
theorem sum_between {β : Type} {weights : List (β × Rat)} {changes : List Rat} {lo hi : Rat}
    (hlen : weights.length = changes.length) (hweights : ∀ e ∈ weights, 0 ≤ e.2)
    (hlo : ∀ x ∈ changes, lo ≤ x) (hhi : ∀ x ∈ changes, x ≤ hi) :
    (weights.map (·.2)).sum * lo ≤ (List.zipWith (fun e x ↦ e.2 * x) weights changes).sum ∧
      (List.zipWith (fun e x ↦ e.2 * x) weights changes).sum ≤ (weights.map (·.2)).sum * hi := by
  induction weights generalizing changes with
  | nil => simp
  | cons e weights ih =>
    match changes with
    | [] => cases hlen
    | x :: changes =>
      simp only [List.forall_mem_cons] at hweights hlo hhi
      obtain ⟨hsumlo, hsumhi⟩ := ih (Nat.succ_inj.mp hlen) hweights.2 hlo.2 hhi.2
      have helo : e.2 * lo ≤ e.2 * x := mul_le_mul_of_nonneg_left hlo.1 hweights.1
      have hehi : e.2 * x ≤ e.2 * hi := mul_le_mul_of_nonneg_left hhi.1 hweights.1
      simp only [List.map_cons, List.sum_cons, List.zipWith_cons_cons, add_mul]
      exact ⟨add_le_add helo hsumlo, add_le_add hehi hsumhi⟩

namespace Client

variable {c : Client Rat} {t : Instant} {weights : List (Asset × Rat)} {r : Rat}

/-- The return of weights is the weighted sum of the changes of their assets. -/
theorem exists_changes (h : c.portfolioReturn t weights = .ok r) : ∃ changes,
    (weights.map (·.1)).mapM (c.changeAt t) = .ok changes ∧
      r = (List.zipWith (fun e x ↦ e.2 * x) weights changes).sum := by
  rw [portfolioReturn_eq, map_eq_ok] at h
  obtain ⟨changes, hchanges, rfl⟩ := h
  refine ⟨changes, ?_, List.sum_eq_foldl.symm⟩
  rw [List.mapM_map]
  exact hchanges

/-- The return of weights that are not negative and sum to one lies between the smallest and the
largest change. -/
theorem portfolioReturn_between (h : c.portfolioReturn t weights = .ok r)
    (hweights : ∀ e ∈ weights, 0 ≤ e.2) (hsum : (weights.map (·.2)).sum = 1) :
    ∃ changes lo hi, (weights.map (·.1)).mapM (c.changeAt t) = .ok changes ∧
      changes.min? = some lo ∧ changes.max? = some hi ∧ lo ≤ r ∧ r ≤ hi := by
  obtain ⟨changes, hchanges, rfl⟩ := exists_changes h
  have hlen : weights.length = changes.length := by
    simpa using (mapM_eq_ok.mp hchanges).length_eq
  have hne : changes ≠ [] := by
    rintro rfl
    rw [List.length_nil, List.length_eq_zero_iff] at hlen
    subst hlen
    exact zero_ne_one hsum
  obtain ⟨lo, hlo⟩ := Option.isSome_iff_exists.mp (List.isSome_min?_of_ne_nil hne)
  obtain ⟨hi, hhi⟩ := Option.isSome_iff_exists.mp (List.isSome_max?_of_ne_nil hne)
  refine ⟨changes, lo, hi, hchanges, hlo, hhi, ?_⟩
  have hbetween := sum_between hlen hweights (List.min?_eq_some_iff.mp hlo).2
    (List.max?_eq_some_iff.mp hhi).2
  rwa [hsum, one_mul, one_mul] at hbetween

end Client

/-! ## Positive prices -/

namespace Table

variable {α : Type} [Quantity α] {T : Table α} {label : Scalar}

/-- A change leads from a cell of a column to a cell of the same. -/
theorem exists_cells_of_mem {l : List (Option Instant × α)} (h : T.changeItems? label = some l)
    {d : Option Instant} {x : α} (hmem : (d, x) ∈ l) :
    ∃ column ∈ T.columns, ∃ p ∈ column.2, ∃ q ∈ column.2, x = Quantity.change p q := by
  obtain ⟨items, hitems, rfl⟩ := Option.map_eq_some_iff.mp h
  obtain ⟨cells, hcells, rfl⟩ := Option.map_eq_some_iff.mp hitems
  obtain ⟨⟨⟨_, p⟩, ⟨_, q⟩⟩, hstep, heq⟩ := List.mem_map.mp hmem
  obtain ⟨rfl, rfl⟩ := Prod.mk.inj heq
  obtain ⟨label', hcolumn⟩ := mem_columns_of_cells? hcells
  have hcell {row : Option Instant × α} (h : row ∈ Series.sortItems (T.dates.zip cells)) :
      row.2 ∈ cells := (List.of_mem_zip ((Series.sortItems_perm _).mem_iff.mp h)).2
  obtain ⟨hbefore, hafter⟩ := of_mem_steps hstep
  exact ⟨_, hcolumn, p, hcell hbefore, q, hcell hafter, rfl⟩

end Table

/-- Between positive prices no change loses everything. -/
theorem Market.IsPositive.neg_one_lt_change {m : Market Rat} (hpos : m.IsPositive)
    (hfield : m.fields.lookup changeField = none) {t : Instant} {asset : Asset} {x : Rat}
    (h : m.client.changeAt t asset = .ok x) : -1 < x := by
  obtain ⟨label, l, -, hl, hmem⟩ := mem_changes hfield h
  obtain ⟨column, hcolumn, p, hp, q, hq, rfl⟩ := Table.exists_cells_of_mem hl hmem
  have hquotient : 0 < q / p := div_pos (hpos column hcolumn q hq) (hpos column hcolumn p hp)
  show -1 < q / p - 1
  linarith

/-! ## Over all days -/

theorem prod_pos_of_returns {returns : List Rat} (h : ∀ r ∈ returns, -1 < r) :
    0 < (returns.map (1 + ·)).prod := by
  refine List.prod_pos fun x hx ↦ ?_
  obtain ⟨r, hr, rfl⟩ := List.mem_map.mp hx
  have := h r hr
  linarith

/-- Returns that never lose everything compound to a total that does not. -/
theorem neg_one_lt_totalReturn {returns : List Rat} (h : ∀ r ∈ returns, -1 < r) :
    -1 < totalReturn returns := by
  have hprod := prod_pos_of_returns h
  rw [← one_add_totalReturn] at hprod
  linarith

theorem le_neg_one_eq_false {x : Rat} (h : -1 < x) :
    Quantity.le x (Quantity.ofInt (-1)) = false := by
  have hlt : Quantity.lt x (Quantity.ofInt (-1)) = false :=
    Bool.eq_false_iff.mpr (by simpa using h.le)
  have heq : Quantity.eq x (Quantity.ofInt (-1)) = false :=
    Bool.eq_false_iff.mpr (by simpa using h.ne')
  rw [Quantity.le, hlt, heq, Bool.or_false]

/-- The annual return is given unless everything is lost. -/
theorem Metrics.annualizedReturn_ne_none [Elementary Rat] {returns : List Rat} {periods : Int}
    {metrics : Metrics Rat} (h : ofReturns returns periods = .ok (some metrics))
    (hloss : Quantity.le (ScorePortfolio.totalReturn returns) (Quantity.ofInt (-1)) = false) :
    metrics.annualizedReturn ≠ none := by
  rcases ofReturns_eq_ok.mp h with ⟨-, h⟩ | ⟨-, _, annualized, _, -, hannualized, -, h⟩
  · cases h
  · obtain rfl := Option.some.inj h
    obtain ⟨x, rfl⟩ := Option.ne_none_iff_exists'.mp (ne_none_of_annualized? hannualized hloss)
    exact Option.some_ne_none x

/-- Each return of a replay lies between the smallest and the largest change of its day over the
universe.  Over positive prices no return is the loss of everything, and neither is what any number
of them add up to, so the figures of the returns have an annual return; this leaves out markets in
which a further field takes the place of the price changes. -/
theorem Graph.returns_withinMarket (g : Graph) {m : Market Rat} (hpos : m.IsPositive)
    {settings : Settings} {moments : List (Option Instant)} {history : History Rat}
    {returns : Series Rat}
    (hhistory : g.history m.client settings moments = .ok history)
    (hreturns : m.client.performance (history.map fun (t, a) ↦ (some t, a)) = .ok returns) :
    (∀ p ∈ returns.points, ∃ changes lo hi,
      m.client.sortedAssets.mapM (m.client.changeAt p.1) = .ok changes ∧
        changes.min? = some lo ∧ changes.max? = some hi ∧ lo ≤ p.2 ∧ p.2 ≤ hi) ∧
    (m.fields.lookup changeField = none →
      (∀ r ∈ returns.values, -1 < r) ∧
      (∀ k, 0 < ((returns.values.take k).map (1 + ·)).prod ∧
        -1 < totalReturn (returns.values.take k)) ∧
      Quantity.le (totalReturn returns.values) (Quantity.ofInt (-1)) = false ∧
      ∀ [Elementary Rat] periods metrics,
        Metrics.ofReturns returns.values periods = .ok (some metrics) →
          metrics.annualizedReturn ≠ none) := by
  obtain ⟨-, -, -, hallocate⟩ := Graph.history_eq_ok.mp hhistory
  obtain ⟨-, -, hreturns⟩ := Client.performance_eq_ok.mp hreturns
  have hbetween : ∀ p ∈ returns.points, ∃ changes lo hi,
      m.client.sortedAssets.mapM (m.client.changeAt p.1) = .ok changes ∧
        changes.min? = some lo ∧ changes.max? = some hi ∧ lo ≤ p.2 ∧ p.2 ≤ hi := by
    intro p hp
    obtain ⟨i, hi⟩ := List.mem_iff_getElem?.mp hp
    obtain ⟨before, after, hbefore, -, ht, hr⟩ := Client.exists_step_of_returns hreturns hi
    have ha := hallocate before (List.mem_of_getElem? hbefore)
    rw [ht, ← Graph.assets_of_allocate m.nodup_assets ha]
    exact Client.portfolioReturn_between hr (Graph.nonneg_of_allocate ha) (Graph.sum_of_allocate ha)
  refine ⟨hbetween, fun hfield ↦ ?_⟩
  have hmore : ∀ r ∈ returns.values, -1 < r := by
    intro r hr
    obtain ⟨p, hp, rfl⟩ := List.mem_map.mp hr
    obtain ⟨changes, lo, -, hchanges, hlo, -, hle, -⟩ := hbetween p hp
    have hmem := (List.min?_eq_some_iff.mp hlo).1
    obtain ⟨asset, -, hasset⟩ := (mem_of_mapM_eq_ok hchanges).mp hmem
    exact lt_of_lt_of_le (hpos.neg_one_lt_change hfield hasset) hle
  have hloss : Quantity.le (totalReturn returns.values) (Quantity.ofInt (-1)) = false :=
    le_neg_one_eq_false (neg_one_lt_totalReturn hmore)
  have htake (k : ℕ) : ∀ r ∈ returns.values.take k, -1 < r := fun r hr ↦
    hmore r (List.mem_of_mem_take hr)
  exact ⟨hmore, fun k ↦ ⟨prod_pos_of_returns (htake k), neg_one_lt_totalReturn (htake k)⟩, hloss,
    fun _ _ h ↦ Metrics.annualizedReturn_ne_none h hloss⟩

/-- The crossover earns no more than its better asset on the last day, and no less than the worse
one. -/
theorem crossover_withinMarket : (∃ changes lo hi,
      (twoAssets ⟨5⟩ 40 1).client.sortedAssets.mapM ((twoAssets ⟨5⟩ 40 1).client.changeAt ⟨5⟩) =
          .ok changes ∧
        changes.min? = some lo ∧ changes.max? = some hi ∧ lo ≤ 55 / 96 ∧ 55 / 96 ≤ hi) ∧
    -1 < totalReturn [-1 / 7, (55 / 96 : Rat)] := by
  have hpos : (twoAssets ⟨5⟩ 40 1).IsPositive := by
    simp [Market.IsPositive, twoAssets]
  obtain ⟨hbetween, hmore⟩ :=
    crossoverGraph.returns_withinMarket hpos twoAssets_history twoAssets_performance
  exact ⟨hbetween (⟨5⟩, 55 / 96) (by simp), ((hmore rfl).2.1 2).2⟩

end ScorePortfolio

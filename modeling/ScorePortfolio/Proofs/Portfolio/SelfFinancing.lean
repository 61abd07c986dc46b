import ScorePortfolio.Portfolio.Compounding
import ScorePortfolio.Proofs.Market.Changes
import ScorePortfolio.Proofs.Portfolio.Replay
import ScorePortfolio.Proofs.Portfolio.Weights
import Mathlib.Tactic.FieldSimp
import Mathlib.Tactic.Ring

/-!
# Self-financing portfolios

In exact arithmetic, the compounded returns of a replay over consecutive days are the gains of a
portfolio that could be held: on each day all of its value buys units of the assets, by the weights
of the day and at the prices of the day, and on the next day the units are worth the prices of that
day.  Nothing is added or taken out, since the weights sum to one.
-/

namespace ScorePortfolio

namespace Market

/-- What a value has become on a later day if it buys units of assets by weight on a day. -/
def reinvest? (m : Market Rat) (value : Rat) (bought later : Instant)
    (weights : List (Asset × Rat)) : Option Rat := do
  let worths ← weights.mapM fun (asset, weight) ↦ do
    let units := value * weight / (← m.price? asset bought)
    return units * (← m.price? asset later)
  return worths.sum

/-- What a value of one on the first day of a history has become on the last, reinvested each day by
the weights of the day. -/
def value? (m : Market Rat) (history : History Rat) : Option Rat :=
  (steps history).foldlM (fun value ((s, a), (t, _)) ↦ m.reinvest? value s t a.weights) 1

/-- Every price is positive. -/
def IsPositive (m : Market Rat) : Prop := ∀ column ∈ m.prices.columns, ∀ x ∈ column.2, 0 < x

variable {m : Market Rat} {asset : Asset} {s t : Instant}

/-- In a market of positive prices each price is positive. -/
theorem IsPositive.pos_of_price? (h : m.IsPositive) {p : Rat} (hp : m.price? asset t = some p) :
    0 < p := by
  obtain ⟨label, -, hp⟩ := Option.bind_eq_some_iff.mp hp
  obtain ⟨cells, hcells, hp⟩ := Option.bind_eq_some_iff.mp hp
  obtain ⟨label', hmem⟩ := Table.mem_columns_of_cells? hcells
  exact h _ hmem p (List.of_mem_zip (Entries.mem_of_lookup hp)).2

/-! ## From one day to the next -/

/-- Each price change at the second moment leads there from a price at the first that is not
zero. -/
def ChangesFrom (m : Market Rat) (s t : Instant) : Prop :=
  ∀ asset x, m.client.changeAt t asset = .ok x →
    ∃ p q, m.price? asset s = some p ∧ m.price? asset t = some q ∧ p ≠ 0 ∧ x = q / p - 1

/-- The worths of the units bought add up to the value with the weights and the return. -/
theorem ChangesFrom.sum_worths (h : m.ChangesFrom s t) (value : Rat) {weights : List (Asset × Rat)}
    {start r : Rat} (hr : weights.foldlM (fun sum (asset, weight) ↦
      (m.client.changeAt t asset).map fun change ↦ sum + weight * change) start = .ok r) :
    ∃ worths : List Rat, (weights.mapM fun (asset, weight) ↦ do
        let units := value * weight / (← m.price? asset s)
        return units * (← m.price? asset t)) = some worths ∧
      worths.sum = value * ((weights.map (·.2)).sum + (r - start)) := by
  induction weights generalizing start with
  | nil =>
    obtain rfl := pure_eq_ok.mp hr
    exact ⟨[], rfl, by simp⟩
  | cons e weights ih =>
    obtain ⟨asset, weight⟩ := e
    rw [List.foldlM_cons] at hr
    obtain ⟨next, hnext, hr⟩ := bind_eq_ok.mp hr
    obtain ⟨x, hx, rfl⟩ := map_eq_ok.mp hnext
    obtain ⟨p, q, hp, hq, hne, rfl⟩ := h asset x hx
    obtain ⟨worths, hworths, hsum⟩ := ih hr
    refine ⟨value * weight / p * q :: worths, ?_, ?_⟩
    · rw [List.mapM_cons, hworths]
      simp [hp, hq]
    · -- the units of an asset are worth its part of the value, and what its price has changed by
      rw [List.sum_cons, hsum, List.map_cons, List.sum_cons]
      field_simp
      ring

/-- A day multiplies the value by its return and one. -/
theorem ChangesFrom.reinvest?_eq (h : m.ChangesFrom s t) {weights : List (Asset × Rat)}
    (hsum : (weights.map (·.2)).sum = 1) {r : Rat}
    (hr : m.client.portfolioReturn t weights = .ok r) (value : Rat) :
    m.reinvest? value s t weights = some (value * (1 + r)) := by
  obtain ⟨worths, hworths, hvalue⟩ := h.sum_worths value hr
  rw [reinvest?, hworths]
  simp [hvalue, hsum]

/-- Between consecutive days of positive prices, the changes lead from price to price. -/
theorem changesFrom_of_consecutive (hfield : m.fields.lookup changeField = none)
    (hfull : m.prices.IsFull) (hnodup : m.prices.dates.Nodup) (hpos : m.IsPositive)
    (hstep : (some s, some t) ∈ steps m.prices.sortedDates) : m.ChangesFrom s t := by
  intro asset x hx
  obtain ⟨p, q, hp, hq, rfl⟩ := change_of_consecutive hfield hfull hnodup hstep hx
  exact ⟨p, q, hp, hq, (hpos.pos_of_price? hp).ne', rfl⟩

end Market

/-! ## Over all days -/

/-- In exact arithmetic, growth is the product of the returns and one. -/
theorem one_add_totalReturn (returns : List Rat) :
    1 + totalReturn returns = (returns.map (1 + ·)).prod := by
  cases returns with
  | nil => simp [totalReturn]
  | cons r returns =>
    rw [totalReturn, if_neg (by simp), Quantity.product, List.prod_eq_foldl]
    exact add_sub_cancel _ _

/-- If each step multiplies a value by a return and one, all of them multiply it by the product. -/
theorem foldlM_returns {β : Type} {f : Rat → β → Option Rat} {l : List β} {returns : List Rat}
    (h : List.Forall₂ (fun b r ↦ ∀ value, f value b = some (value * (1 + r))) l returns)
    (value : Rat) : l.foldlM f value = some (value * (returns.map (1 + ·)).prod) := by
  induction h generalizing value with
  | nil => simp
  | @cons b r l returns hb _ ih =>
    rw [List.foldlM_cons, hb, Option.bind_eq_bind, Option.bind_some, ih, List.map_cons,
      List.prod_cons, mul_assoc]

/-- The compounded returns of a replay over consecutive days are on every day the gains of a
self-financing portfolio, provided that no further field takes the place of the price changes. -/
theorem Graph.value_of_replay (g : Graph) {m : Market Rat} (hnodup : m.prices.dates.Nodup)
    (hfull : m.prices.IsFull) (hpos : m.IsPositive) (hfield : m.fields.lookup changeField = none)
    {settings : Settings} {ts : List Instant} (hts : ts.map some <:+: m.prices.sortedDates)
    {history : History Rat} {returns : Series Rat}
    (hhistory : g.history m.client settings (ts.map some) = .ok history)
    (hreturns : m.client.performance (history.map fun (t, a) ↦ (some t, a)) = .ok returns)
    (i : ℕ) :
    m.value? (history.take (i + 1)) = some (1 + totalReturn (returns.values.take i)) := by
  obtain ⟨hmoments, -, -, hallocate⟩ := Graph.history_eq_ok.mp hhistory
  obtain ⟨-, -, hreturns⟩ := Client.performance_eq_ok.mp hreturns
  obtain ⟨hearned, -⟩ := Client.returns_eq_ok.mp hreturns
  -- a step of the history is a step of the dates, and its weights sum to one
  have hsteps : ∀ step ∈ steps history, m.ChangesFrom step.1.1 step.2.1 ∧
      (step.1.2.weights.map (·.2)).sum = 1 := by
    intro step hstep
    refine ⟨?_, Graph.sum_of_allocate (hallocate _ (List.of_mem_zip hstep).1)⟩
    refine Market.changesFrom_of_consecutive hfield hfull hnodup hpos (mem_steps_mono hts ?_)
    rw [hmoments, steps_map]
    exact List.mem_map_of_mem hstep
  have hvalues : List.Forall₂ (fun step r ↦ ∀ value : Rat,
      m.reinvest? value step.1.1 step.2.1 step.1.2.weights = some (value * (1 + r)))
      (steps history) returns.values := by
    refine List.forall₂_map_right_iff.mpr ?_
    refine ((List.forall₂_and_left _ _).mpr ⟨hsteps, hearned⟩).imp ?_
    rintro step p ⟨⟨hchanges, hsum⟩, -, hr⟩
    exact hchanges.reinvest?_eq hsum hr
  rw [Market.value?, steps_take, one_add_totalReturn, ← one_mul (List.prod _)]
  exact foldlM_returns (List.forall₂_take i hvalues) 1

theorem crossover_value :
    (twoAssets ⟨5⟩ 40 1).value? crossoverHistory = some (1 + totalReturn [-1 / 7, 55 / 96]) ∧
      (1 + totalReturn [-1 / 7, 55 / 96] : Rat) = 151 / 112 := by
  have hnodup : (twoAssets ⟨5⟩ 40 1).prices.dates.Nodup := by decide
  have hpos : (twoAssets ⟨5⟩ 40 1).IsPositive := by
    simp [Market.IsPositive, twoAssets]
  have hdays : [⟨3⟩, ⟨4⟩, ⟨5⟩].map some <:+: (twoAssets ⟨5⟩ 40 1).prices.sortedDates :=
    ⟨[some ⟨1⟩, some ⟨2⟩], [], by cbv⟩
  refine ⟨?_, by cbv⟩
  exact crossoverGraph.value_of_replay hnodup (by simp [Table.IsFull, twoAssets]) hpos rfl hdays
    twoAssets_history twoAssets_performance 2

end ScorePortfolio

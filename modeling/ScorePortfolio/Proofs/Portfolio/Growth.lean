import ScorePortfolio.Portfolio.Backtest
import ScorePortfolio.Proofs.Market.Days
import ScorePortfolio.Proofs.Number.Missing
import ScorePortfolio.Proofs.Portfolio.Metrics
import ScorePortfolio.Proofs.Portfolio.Outcome
import ScorePortfolio.Proofs.Portfolio.SelfFinancing

/-!
# Growth and total return

A backtest compounds its returns as their total, once more among the figures, and as the growth of
one unit after each of them.  In exact arithmetic the growth is the total return of the returns so
far, and one.  In doubles it has no value exactly where that total return has none, until a return
is not a number: from there on no total return is a number, but the growth leaves out such returns
and goes on with the others.
-/

namespace ScorePortfolio

variable {α : Type} [Quantity α]

open Quantity

/-! ## Growth after a number of returns -/

/-- The returns whose growth is a number. -/
def compounded (returns : List α) : List α := returns.filter fun r ↦ !isMissing (one + r)

theorem compounded_cons (r : α) (returns : List α) : compounded (r :: returns) =
    if isMissing (one + r) then compounded returns else r :: compounded returns := by
  cases h : isMissing (one + r) <;> simp [compounded, h]

/-- The growth after a return is the product of the factors so far that are numbers, unless the
factor of the return itself is none. -/
theorem getElem?_growthFrom (growth : α) (returns : List α) (k : ℕ) :
    (growthFrom growth returns)[k]? = returns[k]?.map fun r ↦ if isMissing (one + r) then none else
      present? (((compounded (returns.take (k + 1))).map (one + ·)).foldl (· * ·) growth) := by
  induction returns generalizing growth k with
  | nil => rfl
  | cons r returns ih =>
    rw [growthFrom, List.take_succ_cons, compounded_cons]
    cases hr : isMissing (one + r) with
    | true =>
      cases k with
      | zero => simp [hr]
      | succ k => simpa using ih growth k
    | false =>
      cases k with
      | zero => simp [hr, compounded]
      | succ k => simpa using ih (growth * (one + r)) k

theorem length_growthFrom (growth : α) (returns : List α) :
    (growthFrom growth returns).length = returns.length := by
  induction returns generalizing growth with
  | nil => rfl
  | cons r returns ih =>
    rw [growthFrom]
    split
    · exact congrArg (· + 1) (ih _)
    · exact congrArg (· + 1) (ih _)

theorem totalReturn_of_ne_nil {returns : List α} (h : returns ≠ []) :
    totalReturn returns = product (returns.map (one + ·)) - one := by
  rw [totalReturn, if_neg (by simpa using h)]

omit [Quantity α] in
theorem mem_take_of_getElem? {returns : List α} {k : ℕ} {r : α} (hk : returns[k]? = some r) :
    r ∈ returns.take (k + 1) :=
  List.mem_of_getElem? ((List.getElem?_take_of_lt (Nat.lt_succ_self k)).trans hk)

/-- After a return the growth belongs to a total return: that of the returns so far whose factors
are numbers. -/
theorem exists_growth {returns : List α} {k : ℕ} {r : α} (hk : returns[k]? = some r) :
    ∃ e, (equityCurve returns)[k]? = some e ∧
      (isMissing (one + r) = true → e = none) ∧
      (isMissing (one + r) = false → ∃ growth, e = present? growth ∧
        totalReturn (compounded (returns.take (k + 1))) = growth - one) := by
  refine ⟨_, by rw [equityCurve, getElem?_growthFrom, hk, Option.map_some], fun h ↦ if_pos h,
    fun h ↦ ?_⟩
  rw [if_neg (Bool.eq_false_iff.mp h)]
  refine ⟨_, rfl, totalReturn_of_ne_nil (List.ne_nil_of_mem (a := r) ?_)⟩
  exact List.mem_filter.mpr ⟨mem_take_of_getElem? hk, by rw [h, Bool.not_false]⟩

/-! ## Doubles -/

/-- The returns that are compounded are those that are a number. -/
theorem compounded_float (returns : List Float) :
    compounded returns = returns.filter fun r ↦ !r.isNaN := by
  refine List.filter_congr fun r _ ↦ ?_
  rw [Bool.not_inj_iff, Bool.eq_iff_iff, isMissing_iff]
  exact Binary.isNaN_add_of_isFinite Binary.isFinite_one

/-- A return that is not a number leaves no total return. -/
theorem isNaN_totalReturn {returns : List Float} {r : Float} (hmem : r ∈ returns)
    (h : r.isNaN = true) : (totalReturn returns).isNaN = true := by
  rw [totalReturn_of_ne_nil (List.ne_nil_of_mem hmem)]
  exact Binary.isNaN_sub
    (.inl (Binary.isNaN_product (List.mem_map_of_mem hmem) (Binary.isNaN_add (.inr h))))

/-- After a return the growth has a value unless the return is not a number, or the total return of
the numbers among the returns so far is none. -/
theorem exists_growth_float {returns : List Float} {k : ℕ} {r : Float}
    (hk : returns[k]? = some r) : ∃ e, (equityCurve returns)[k]? = some e ∧
      (e = none ↔ r.isNaN = true ∨
        (totalReturn ((returns.take (k + 1)).filter fun r ↦ !r.isNaN)).isNaN = true) ∧
      ∀ growth, e = some growth →
        totalReturn ((returns.take (k + 1)).filter fun r ↦ !r.isNaN) = growth - one := by
  obtain ⟨e, he, hmissing, hgrowth⟩ := exists_growth hk
  have hfactor : isMissing (one + r) = true ↔ r.isNaN = true := by
    rw [isMissing_iff]
    exact Binary.isNaN_add_of_isFinite Binary.isFinite_one
  rw [compounded_float] at hgrowth
  refine ⟨e, he, ?_⟩
  by_cases hr : r.isNaN = true
  · obtain rfl := hmissing (hfactor.mpr hr)
    exact ⟨iff_of_true rfl (.inl hr), nofun⟩
  · obtain ⟨growth, rfl, htotal⟩ := hgrowth (Bool.eq_false_iff.mpr (mt hfactor.mp hr))
    rw [htotal, Binary.isNaN_sub_of_isFinite Binary.isFinite_one, present?_eq_none, isMissing_iff]
    refine ⟨(or_iff_right hr).symm, fun growth' h ↦ ?_⟩
    rw [present?] at h
    split at h
    · cases h
    · rw [Option.some.inj h]

/-! ## Results -/

namespace BacktestResult

/-- The equity curve has the moments of the returns. -/
theorem getElem?_equity {result : BacktestResult α} {k : ℕ} {t : Option Instant} {r : α}
    {e : Option α} (hk : result.returns[k]? = some (t, r))
    (he : (equityCurve (result.returns.map (·.2)))[k]? = some e) :
    result.equity[k]? = some (t, e) := by
  refine List.getElem?_zip_eq_some.mpr ⟨?_, he⟩
  rw [List.getElem?_map, hk]
  rfl

/-- In exact arithmetic the growth after a return is the total return of the returns so far, and
one; after the last return it is that of the result. -/
theorem equity_exact (result : BacktestResult Rat) :
    (∀ k t r, result.returns[k]? = some (t, r) → result.equity[k]? = some (t,
      some (1 + ScorePortfolio.totalReturn ((result.returns.map (·.2)).take (k + 1))))) ∧
    ∀ t r, result.returns.getLast? = some (t, r) →
      result.equity.getLast? = some (t, some (1 + result.totalReturn)) := by
  have hgrowth {k : ℕ} {t : Option Instant} {r : Rat} (hk : result.returns[k]? = some (t, r)) :
      result.equity[k]? = some (t,
        some (1 + ScorePortfolio.totalReturn ((result.returns.map (·.2)).take (k + 1)))) := by
    have hr : (result.returns.map (·.2))[k]? = some r := by
      rw [List.getElem?_map, hk]
      rfl
    obtain ⟨e, he, -, hgrowth⟩ := exists_growth hr
    obtain ⟨growth, rfl, htotal⟩ := hgrowth rfl
    have hall (returns : List Rat) : compounded returns = returns :=
      List.filter_eq_self.mpr fun _ _ ↦ rfl
    rw [hall] at htotal
    rw [getElem?_equity hk he, htotal]
    simp
  refine ⟨fun k t r ↦ hgrowth, fun t r hlast ↦ ?_⟩
  have hlen : result.equity.length = result.returns.length := by
    rw [equity, List.length_zip, equityCurve, length_growthFrom, List.length_map, List.length_map,
      Nat.min_self]
  have hall : (result.returns.map (·.2)).length ≤ result.returns.length - 1 + 1 := by
    rw [List.length_map]
    exact Nat.le_add_of_sub_le (Nat.le_refl _)
  rw [List.getLast?_eq_getElem?] at hlast ⊢
  rw [hlen, hgrowth hlast, totalReturn, List.take_of_length_le hall]

end BacktestResult

/-! ## Runs -/

namespace Backtest

variable [Elementary α] {g : Graph} {c : Client α} {settings : Settings}
  {moments : List (Option Instant)} {result : BacktestResult α}

/-- The total return stands among the figures of a run, if there are enough returns for any. -/
theorem lookup_totalReturn (h : run g c settings moments = .ok result) :
    result.metrics.lookup "total_return" =
      if result.days < 2 then none else some (present? result.totalReturn) := by
  obtain ⟨history, -, h⟩ := bind_eq_ok.mp h
  obtain ⟨returns, -, h⟩ := bind_eq_ok.mp h
  obtain ⟨metrics, hmetrics, rfl⟩ := map_eq_ok.mp (mapError_eq_ok.mp h)
  rw [Metrics.lookup_totalReturn hmetrics, BacktestResult.days, BacktestResult.totalReturn,
    List.map_map, List.length_map, Series.values, List.length_map]
  rfl

/-- The figures of a run have the total return of its result.  While the returns are numbers, the
growth after each has a value exactly if the total return so far has, and is one more than that.
From a return that is not a number on, no total return is a number; the growth has a value then if
the return at hand is a number and so is the total of those so far that are. -/
theorem growth_of_run {c : Client Float} {result : BacktestResult Float}
    (h : run g c settings moments = .ok result) :
    result.metrics.lookup "total_return" =
        (if result.days < 2 then none else some (present? result.totalReturn)) ∧
      ∀ k t r, result.returns[k]? = some (t, r) → ∃ e, result.equity[k]? = some (t, e) ∧
        ((∀ x ∈ (result.returns.map (·.2)).take (k + 1), ¬ x.isNaN = true) →
          (e = none ↔ (totalReturn ((result.returns.map (·.2)).take (k + 1))).isNaN = true) ∧
          ∀ growth, e = some growth →
            totalReturn ((result.returns.map (·.2)).take (k + 1)) = growth - one) ∧
        ((∃ x ∈ (result.returns.map (·.2)).take (k + 1), x.isNaN = true) →
          (totalReturn ((result.returns.map (·.2)).take (k + 1))).isNaN = true ∧
          (e = none ↔ r.isNaN = true ∨ (totalReturn (((result.returns.map (·.2)).take
            (k + 1)).filter fun x ↦ !x.isNaN)).isNaN = true)) := by
  refine ⟨lookup_totalReturn h, fun k t r hk ↦ ?_⟩
  have hr : (result.returns.map (·.2))[k]? = some r := by
    rw [List.getElem?_map, hk]
    rfl
  obtain ⟨e, he, hnone, hgrowth⟩ := exists_growth_float hr
  refine ⟨e, BacktestResult.getElem?_equity hk he, fun hnumbers ↦ ?_, ?_⟩
  · have hall : ((result.returns.map (·.2)).take (k + 1)).filter (fun x ↦ !x.isNaN) =
        (result.returns.map (·.2)).take (k + 1) :=
      List.filter_eq_self.mpr fun x hx ↦ by
        rw [Bool.eq_false_iff.mpr (hnumbers x hx), Bool.not_false]
    rw [hall] at hnone hgrowth
    exact ⟨hnone.trans (or_iff_right (hnumbers r (mem_take_of_getElem? hr))), hgrowth⟩
  · rintro ⟨x, hx, hnan⟩
    exact ⟨isNaN_totalReturn hx hnan, hnone⟩

end Backtest

/-! ## A price of zero -/

/-- An asset of constant price, and one that is worth nothing on the first day. -/
def revivedCells : List (String × List Float) := [("A", [1, 1, 1]), ("B", [0, 1, 1])]

/-- The market of these prices. -/
def revivedMarket : Market Float := .ofDays [⟨1⟩, ⟨2⟩, ⟨3⟩] revivedCells

/-- The allocations by price. -/
def revivedHistory : History Float := [
  (⟨1⟩, ⟨some ⟨1⟩, [(⟨"A"⟩, 1), (⟨"B"⟩, 0)]⟩),
  (⟨2⟩, ⟨some ⟨2⟩, [(⟨"A"⟩, 0.5), (⟨"B"⟩, 0.5)]⟩),
  (⟨3⟩, ⟨some ⟨3⟩, [(⟨"A"⟩, 0.5), (⟨"B"⟩, 0.5)]⟩)]

theorem revivedMarket_cachedClient :
    revivedMarket.cachedClient (Market.dailyCache [⟨1⟩, ⟨2⟩, ⟨3⟩] revivedCells) =
      revivedMarket.client := by
  have hholds := Market.ofDays_holds (α := Float) (by decide : [⟨1⟩, ⟨2⟩, ⟨3⟩].Pairwise (· < ·))
    (by decide) (by decide : (revivedCells.map (·.1)).Nodup)
  exact hholds.cachedClient_eq

/-- The asset priced at zero has no weight on the first day; from then on the two share evenly. -/
theorem revivedMarket_history : priceGraph.history revivedMarket.client .standard
    ([⟨1⟩, ⟨2⟩, ⟨3⟩].map some) = .ok revivedHistory := by
  rw [← revivedMarket_cachedClient]
  have hweights : ∀ e ∈ revivedHistory, ⟨some e.1, e.2.weights⟩ = e.2 ∧
      e.2.weights.map (·.1) = [⟨"A"⟩, ⟨"B"⟩] ∧
      priceGraph.weightsOver (revivedMarket.cachedClient
        (Market.dailyCache [⟨1⟩, ⟨2⟩, ⟨3⟩] revivedCells)) .standard (some e.1)
        [⟨"A"⟩, ⟨"B"⟩] = .ok e.2.weights := by
    decide +kernel
  refine Graph.history_eq_ok.mpr ⟨rfl, List.cons_ne_nil _ _, by decide, fun e he ↦ ?_⟩
  obtain ⟨he, hkeys, hweights⟩ := hweights e he
  exact he ▸ Graph.allocate_of_weightsOver rfl (by decide) hkeys hweights

theorem revivedMarket_returns :
    revivedMarket.client.returns revivedHistory = .ok ⟨[(⟨2⟩, 0.0 / 0.0), (⟨3⟩, 0)]⟩ := by
  rw [← revivedMarket_cachedClient]
  decide +kernel

theorem exists_metrics_revived :
    ∃ metrics, Metrics.ofReturns ([0.0 / 0.0, 0] : List Float) 252 = .ok metrics := by
  have hdeviation : Metrics.deviation? ([0.0 / 0.0, 0] : List Float) = none := by
    rw [Metrics.deviation?, if_pos (by decide)]
  have hsharpe : Metrics.sharpe? ([0.0 / 0.0, 0] : List Float) 252 = .ok none := by
    rw [Metrics.sharpe?, hdeviation]
  obtain ⟨annualized, hannualized⟩ : ∃ annualized, Metrics.annualized?
      (totalReturn ([0.0 / 0.0, 0] : List Float)) 2 252 = .ok annualized :=
    ⟨some (0.0 / 0.0), by decide +kernel⟩
  exact ⟨_, Metrics.ofReturns_eq_ok.mpr (.inr ⟨by decide, _, _, _, hsharpe, hannualized, rfl, rfl⟩)⟩

/-- The weight of nothing on the first day keeps its infinite change in the return, which is then
not a number. -/
theorem exists_run_revived : ∃ result,
    Backtest.run priceGraph revivedMarket.client .standard ([⟨1⟩, ⟨2⟩, ⟨3⟩].map some) =
        .ok result ∧
      result.returns = [(some ⟨2⟩, 0.0 / 0.0), (some ⟨3⟩, 0)] := by
  obtain ⟨metrics, hmetrics⟩ := exists_metrics_revived
  refine ⟨_, bind_eq_ok.mpr ⟨_, mapError_eq_ok.mpr revivedMarket_history, bind_eq_ok.mpr ⟨_,
    mapError_eq_ok.mpr revivedMarket_returns, mapError_eq_ok.mpr (map_eq_ok.mpr ⟨metrics,
      hmetrics, rfl⟩)⟩⟩, rfl⟩

/-- The growth goes on where no total return is a number. -/
theorem revivedMarket_growth : ∃ result : BacktestResult Float,
    Backtest.run priceGraph revivedMarket.client .standard ([⟨1⟩, ⟨2⟩, ⟨3⟩].map some) =
        .ok result ∧
      result.metrics.lookup "total_return" = some none ∧
      ∃ e, result.equity[1]? = some (some ⟨3⟩, e) ∧ e ≠ none ∧
        (totalReturn ((result.returns.map (·.2)).take 2) : Float).isNaN = true := by
  obtain ⟨result, hrun, hreturns⟩ := exists_run_revived
  obtain ⟨hmetrics, hgrowth⟩ := Backtest.growth_of_run hrun
  obtain ⟨e, he, -, hnan⟩ := hgrowth 1 (some ⟨3⟩) 0 (by rw [hreturns]; rfl)
  obtain ⟨htotal, hnone⟩ := hnan (by rw [hreturns]; exact ⟨0.0 / 0.0, by simp, by decide⟩)
  refine ⟨result, hrun, ?_, e, he, fun h ↦ ?_, htotal⟩
  · rw [hmetrics, BacktestResult.days, BacktestResult.totalReturn, hreturns]
    decide +kernel
  · have hnan := hnone.mp h
    rw [hreturns] at hnan
    revert hnan
    decide +kernel

/-- So it is not true of finite prices that the growth has a value exactly where the total return
has one. -/
theorem exists_growth_without_totalReturn : ¬ ∀ m : Market Float,
    (∀ column ∈ m.prices.columns, ∀ x ∈ column.2, x.isFinite = true) →
    ∀ (g : Graph) settings moments (result : BacktestResult Float),
      Backtest.run g m.client settings moments = .ok result → ∀ k t e,
        result.equity[k]? = some (t, e) →
          (e = none ↔
            (totalReturn ((result.returns.map (·.2)).take (k + 1)) : Float).isNaN = true) := by
  intro h
  obtain ⟨result, hrun, hreturns⟩ := exists_run_revived
  have hequity : result.equity[1]? = some (some ⟨3⟩, some 1) := by
    rw [BacktestResult.equity, hreturns]
    decide +kernel
  have hfinite : ∀ column ∈ revivedMarket.prices.columns, ∀ x ∈ column.2, x.isFinite = true := by
    decide
  have htotal := (h _ hfinite _ _ _ _ hrun 1 _ _ hequity).mpr
  rw [hreturns] at htotal
  exact absurd (htotal (by decide +kernel)) (Option.some_ne_none _)

end ScorePortfolio

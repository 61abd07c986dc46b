import ScorePortfolio.Portfolio.Backtest
import ScorePortfolio.Proofs.Evaluation.Dates
import ScorePortfolio.Proofs.Portfolio.Replay

/-!
# Only the order of dates matters

A whole replay can be moved to other dates in the same order: the market's rows, the moments of the
replay and with them all that comes out.  Scores, weights and returns are the same numbers, and a
failure is the same failure, told of the new dates.
-/

namespace ScorePortfolio

variable {φ : Instant → Instant} {D : Set Instant} {α : Type}

/-! ## What comes out of a replay -/

/-- The allocation as of the new date; the weights are the same. -/
def Allocation.redate (φ : Instant → Instant) (a : Allocation α) : Allocation α :=
  { a with asOf := a.asOf.map φ }

/-- The error with other dates. -/
def AllocationError.redate (φ : Instant → Instant) : AllocationError → AllocationError
  | pool cause => pool cause
  | evaluation cause => evaluation (cause.redate φ)
  | emptyScore asset t => emptyScore asset (t.map φ)
  | weights t cause => weights (t.map φ) cause

/-- The error with other dates. -/
def ReplayError.redate (φ : Instant → Instant) : ReplayError → ReplayError
  | allocation cause => allocation (cause.redate φ)
  | evaluation cause => evaluation (cause.redate φ)
  | range cause => range (cause.redate φ)
  | e => e

/-- The error with other dates. -/
def BacktestError.redate (φ : Instant → Instant) : BacktestError → BacktestError
  | replay cause => replay (cause.redate φ)
  | e => e

/-- The history with other dates. -/
def redateHistory (φ : Instant → Instant) (history : History α) : History α :=
  history.map (Prod.map φ (Allocation.redate φ))

/-- The returns and the weights are the same under other dates, and so are the figures.  The
description of a run tells its first and last moment, so it is left out. -/
structure BacktestResult.Redated (φ : Instant → Instant) (r r' : BacktestResult α) : Prop where
  returns : r'.returns = r.returns.map (Prod.map (Option.map φ) id)
  allocations : r'.allocations = r.allocations.redate φ
  metrics : r'.metrics = r.metrics

variable [Quantity α] {c c' : Client α} {t : Option Instant}

/-! ## Allocations -/

namespace Graph

variable {settings : Settings}

/-- Scoring commutes with redating the client and the moment. -/
theorem scoreAssets_redated (hφ : Redates φ D) (hc : Client.Redated φ D c c') (g : Graph)
    (ht : ∀ u ∈ t, u ∈ D) (assets : List Asset) :
    Agree (fun e e' ↦ e' = e.redate φ)
      (fun scores scores' ↦ scores' = scores.map (Prod.map id (AssetScore.redate φ)))
      (g.scoreAssets c settings t assets) (g.scoreAssets c' settings (t.map φ) assets) := by
  rw [scoreAssets, scoreAssets]
  cases settings.checkPool (Asset.sort assets).length with
  | error e => exact .error rfl
  | ok =>
    refine (Agree.mapM_self (h := Prod.map id (AssetScore.redate φ)) fun asset _ ↦ ?_).bind ?_
    · have hpass := (g.evaluate_redated hφ hc asset ht).result
      exact (hpass.map fun _ _ hr ↦ by rw [hr]; rfl).mapError fun _ _ he ↦ by rw [he]; rfl
    · rintro scores _ - rfl
      exact .ok (Entries.ofList_map (fun _ _ ↦ rfl) _ _)

/-- The latest score does not see its date. -/
theorem latestScore_redated (asset : Asset) (s : AssetScore α) :
    Agree (fun e e' ↦ e' = e.redate φ) (fun p p' ↦ p' = id p) (latestScore t asset s)
      (latestScore (t.map φ) asset (s.redate φ)) := by
  have hlast : (s.redate φ).score.zeroNegatives.lastPoint? =
      s.score.zeroNegatives.lastPoint?.map (Prod.map φ id) := by
    rw [← Series.lastPoint?_redate, Series.zeroNegatives, Series.zeroNegatives, Series.redate_map]
    rfl
  rw [latestScore, latestScore, hlast]
  cases s.score.zeroNegatives.lastPoint? with
  | none => exact .error rfl
  | some p => exact .ok rfl

/-- Allocating commutes with redating: the weights are the same, under the redated moment. -/
theorem allocate_redated (hφ : Redates φ D) (hc : Client.Redated φ D c c') (g : Graph)
    (settings : Settings) (ht : ∀ u ∈ t, u ∈ D) :
    Agree (fun e e' ↦ e' = e.redate φ) (fun a a' ↦ a' = a.redate φ) (g.allocate c settings t)
      (g.allocate c' settings (t.map φ)) := by
  have hassets : c'.sortedAssets = c.sortedAssets := by
    rw [Client.sortedAssets, Client.sortedAssets, hc.assets]
  rw [allocate, allocate, hassets]
  refine (scoreAssets_redated hφ hc g ht _).bind ?_
  rintro scores _ - rfl
  refine (Agree.mapM fun e _ ↦ latestScore_redated e.1 e.2).bind ?_
  rintro latest _ - rfl
  rw [List.map_id]
  cases normalize latest with
  | error e => exact .error rfl
  | ok weights => exact .ok rfl

end Graph

/-! ## Replays -/

/-- Moments are in order before they are redated exactly if they are afterwards. -/
theorem replayMoments_redated (hφ : Redates φ D) {moments : List (Option Instant)}
    (hmoments : ∀ t ∈ moments, ∀ u ∈ t, u ∈ D) :
    Agree (fun e e' ↦ e' = ReplayError.redate φ e)
      (fun ts ts' ↦ (∀ t ∈ ts, t ∈ D) ∧ ts' = ts.map φ) (replayMoments moments)
      (replayMoments (moments.map (Option.map φ))) := by
  cases moments with
  | nil => exact .error rfl
  | cons t moments =>
    have hpresent := Series.presentIndex?_redate (φ := φ) (t :: moments)
    rw [List.map_cons] at hpresent ⊢
    simp only [replayMoments, hpresent]
    cases hindex : Series.presentIndex? (t :: moments) with
    | none => exact .error rfl
    | some index =>
      have hdates : ∀ u ∈ index, u ∈ D := fun u hu ↦
        hmoments (some u) (Series.presentIndex?_eq_some.mp hindex ▸ List.mem_map_of_mem hu) u rfl
      simp only [Option.map_some, Series.increasing_redate hφ hdates]
      split
      · exact .ok ⟨hdates, rfl⟩
      · exact .error rfl

/-- The history at the redated moments is the history, redated. -/
theorem Graph.history_redated (hφ : Redates φ D) (hc : Client.Redated φ D c c') (g : Graph)
    (settings : Settings) {moments : List (Option Instant)}
    (hmoments : ∀ t ∈ moments, ∀ u ∈ t, u ∈ D) :
    Agree (fun e e' ↦ e' = e.redate φ)
      (fun h h' ↦ (∀ e ∈ h, e.1 ∈ D) ∧ h' = redateHistory φ h)
      (g.history c settings moments)
      (g.history c' settings (moments.map (Option.map φ))) := by
  refine (replayMoments_redated hφ hmoments).bind ?_
  rintro ts _ - ⟨hts, rfl⟩
  refine (Agree.mapM (h := Prod.map φ (Allocation.redate φ)) fun t ht ↦ ?_).imp
    fun h _ hh heq ↦ ⟨fun e he ↦ ?_, heq⟩
  · have hallocate := allocate_redated hφ hc g settings (t := some t)
      (by simpa using hts t ht)
    exact (hallocate.map fun _ _ ha ↦ by rw [ha]; rfl).mapError fun _ _ he ↦ by rw [he]; rfl
  · obtain ⟨t, ht, he⟩ := (mem_of_mapM_eq_ok hh).mp he
    exact (keyed_eq_ok.mp he).1 ▸ hts t ht

namespace Client

omit [Quantity α] in
/-- The redated client changes an asset at the redated moment by the same. -/
theorem changeAt_redated (hφ : Redates φ D) (hc : Client.Redated φ D c c') {t : Instant}
    (ht : t ∈ D) (asset : Asset) :
    Agree (fun e e' ↦ e' = e.redate φ) Eq (c.changeAt t asset) (c'.changeAt (φ t) asset) := by
  have hsend := hc.send (r := ⟨asset, some t, some changeField⟩) (by simpa using ht)
  refine hsend.bind ?_
  rintro s _ - ⟨hs, rfl⟩
  rw [Series.get?_redate hφ hs ht]
  cases s.get? (some t) with
  | some x => exact .ok rfl
  | none => exact .error rfl

theorem portfolioReturn_redated (hφ : Redates φ D) (hc : Client.Redated φ D c c') {t : Instant}
    (ht : t ∈ D) (weights : List (Asset × α)) :
    Agree (fun e e' ↦ e' = e.redate φ) Eq (c.portfolioReturn t weights)
      (c'.portfolioReturn (φ t) weights) :=
  Agree.foldlM (fun sum weighted _ ↦ (changeAt_redated hφ hc ht weighted.1).map
    fun _ _ hx ↦ congrArg (sum + weighted.2 * ·) hx) _

/-- The returns of the redated history are the returns, redated. -/
theorem returns_redated (hφ : Redates φ D) (hc : Client.Redated φ D c c') {history : History α}
    (hhistory : ∀ e ∈ history, e.1 ∈ D) :
    Agree (fun e e' ↦ e' = e.redate φ) (Series.Redated φ D) (c.returns history)
      (c'.returns (redateHistory φ history)) := by
  have hdated {step} (hstep : step ∈ steps history) : step.2.1 ∈ D :=
    hhistory step.2 (of_mem_steps hstep).2
  rw [returns, returns, redateHistory, steps_map]
  refine (Agree.mapM (h := Prod.map φ id) fun step hstep ↦ ?_).bind ?_
  · have hearned := portfolioReturn_redated hφ hc (hdated hstep) step.1.2.weights
    exact (hearned.map fun _ _ hx ↦ by rw [hx]; rfl).mapError fun _ _ he ↦ by rw [he]; rfl
  · rintro points _ hpoints rfl
    have hpoint : ∀ p ∈ points, p.1 ∈ D := fun p hp ↦ by
      obtain ⟨step, hstep, hp⟩ := (mem_of_mapM_eq_ok hpoints).mp hp
      exact (keyed_eq_ok.mp hp).1 ▸ hdated hstep
    have hfit := mapM_fit_eq_ok.mpr ⟨fun p hp ↦ hφ.inRange _ (hpoint p hp), rfl⟩
    have himages : ∀ p ∈ points.map (Prod.map φ id), p.1.InRange :=
      List.forall_mem_map.mpr fun p hp ↦ hφ.image_inRange _ (hpoint p hp)
    rw [hfit, mapM_fit_eq_ok.mpr ⟨himages, rfl⟩]
    exact .ok ⟨hpoint, rfl⟩

/-- The performance of redated allocations is the performance, redated. -/
theorem performance_redated (hφ : Redates φ D) (hc : Client.Redated φ D c c')
    {allocations : List (Option Instant × Allocation α)} (ha : ItemsDatedIn allocations D) :
    Agree (fun e e' ↦ e' = e.redate φ) (Series.Redated φ D) (c.performance allocations)
      (c'.performance (allocations.map (Prod.map (Option.map φ) (Allocation.redate φ)))) := by
  have hdated : ∀ t ∈ allocations.map (·.1), ∀ u ∈ t, u ∈ D := List.forall_mem_map.mpr ha
  have hdates : (allocations.map (Prod.map (Option.map φ) (Allocation.redate φ))).map (·.1) =
      (allocations.map (·.1)).map (Option.map φ) := by
    simp
  rw [performance, performance, hdates]
  refine (replayMoments_redated hφ hdated).bind ?_
  rintro ts _ - ⟨hts, rfl⟩
  have hhistory : (ts.map φ).zip
      ((allocations.map (Prod.map (Option.map φ) (Allocation.redate φ))).map (·.2)) =
        redateHistory φ (ts.zip (allocations.map (·.2))) := by
    rw [redateHistory, ← List.zip_map, List.map_map, List.map_map]
    rfl
  rw [hhistory]
  exact returns_redated hφ hc fun e he ↦ hts _ (List.of_mem_zip he).1

end Client

namespace Backtest

omit [Quantity α] in
/-- The table of a redated history is the table, redated. -/
theorem table_redate (history : History α) :
    table (redateHistory φ history) = (table history).redate φ := by
  cases history with
  | nil => rfl
  | cons e history =>
    simp only [table, redateHistory, Table.redate, List.map_cons, List.map_map,
      List.filterMap_cons, List.filterMap_map]
    rfl

/-- The figures do not see the dates, and the equity and the weights are redated. -/
theorem report_redated [Elementary α] (g : Graph) (settings : Settings) (history : History α)
    (returns : Series α) :
    Agree (fun e e' ↦ e' = e) (BacktestResult.Redated φ) (report g settings history returns)
      (report g settings (redateHistory φ history) (returns.redate φ)) := by
  rw [report, report, Series.values_redate]
  cases Metrics.ofReturns returns.values settings.periodsPerYear with
  | error e => exact .error rfl
  | ok metrics =>
    refine .ok ⟨?_, table_redate history, rfl⟩
    simp [Series.redate, Function.comp_def]

/-- A run over the redated market is the run, redated. -/
theorem run_redated [Elementary α] (hφ : Redates φ D) (hc : Client.Redated φ D c c') (g : Graph)
    (settings : Settings) {moments : List (Option Instant)}
    (hmoments : ∀ t ∈ moments, ∀ u ∈ t, u ∈ D) :
    Agree (fun e e' ↦ e' = e.redate φ) (BacktestResult.Redated φ) (run g c settings moments)
      (run g c' settings (moments.map (Option.map φ))) := by
  have hreplay {e e' : ReplayError} (he : e' = e.redate φ) :
      BacktestError.replay e' = (BacktestError.replay e).redate φ := congrArg _ he
  refine ((g.history_redated hφ hc settings hmoments).mapError fun _ _ ↦ hreplay).bind ?_
  rintro history _ - ⟨hhistory, rfl⟩
  refine ((Client.returns_redated hφ hc hhistory).mapError fun _ _ ↦ hreplay).bind ?_
  rintro returns _ - ⟨-, rfl⟩
  refine (report_redated g settings history returns).mapError ?_
  rintro e _ rfl
  rfl

end Backtest

/-! ## Over a market -/

/-- Only the order of dates matters: under a map that keeps the order of the moments in use, a
market with the images of its dates leads, as of the images of moments, to the same outputs,
weights, returns and figures at the images of their moments, or to the same failure.  The window of
a moving average counts points, so it gives the same values under any other dates at all. -/
theorem Market.redate_outcome (g : Graph) {m : Market α} (hφ : Redates φ D) (hm : m.DatedIn D) :
    (∀ asset t, (∀ u ∈ t, u ∈ D) → Outcome.Redated φ (fun r r' ↦ r' = r.redate φ)
      (g.evaluate m.client asset t) (g.evaluate (m.redate φ).client asset (t.map φ))) ∧
    (∀ settings t, (∀ u ∈ t, u ∈ D) → Agree (fun e e' ↦ e' = e.redate φ)
      (fun a a' ↦ a' = a.redate φ) (g.allocate m.client settings t)
      (g.allocate (m.redate φ).client settings (t.map φ))) ∧
    (∀ settings moments, (∀ t ∈ moments, ∀ u ∈ t, u ∈ D) → Agree (fun e e' ↦ e' = e.redate φ)
      (fun h h' ↦ h' = redateHistory φ h) (g.history m.client settings moments)
      (g.history (m.redate φ).client settings (moments.map (Option.map φ)))) ∧
    (∀ allocations, ItemsDatedIn allocations D → Agree (fun e e' ↦ e' = e.redate φ)
      (fun r r' ↦ r' = r.redate φ) (m.client.performance allocations)
      ((m.redate φ).client.performance
        (allocations.map (Prod.map (Option.map φ) (Allocation.redate φ))))) ∧
    (∀ [Elementary α] settings moments, (∀ t ∈ moments, ∀ u ∈ t, u ∈ D) →
      Agree (fun e e' ↦ e' = e.redate φ) (BacktestResult.Redated φ)
        (Backtest.run g m.client settings moments)
        (Backtest.run g (m.redate φ).client settings (moments.map (Option.map φ)))) ∧
    (∀ (s : Series α) (ψ : Instant → Instant) w,
      (s.redate ψ).sma w = (s.sma w).map (Series.redate ψ)) := by
  have hc := client_redated hφ hm
  refine ⟨fun asset _ ht ↦ g.evaluate_redated hφ hc asset ht,
    fun settings _ ht ↦ g.allocate_redated hφ hc settings ht, fun settings moments hmoments ↦ ?_,
    fun allocations ha ↦ ?_,
    fun settings _ hmoments ↦ Backtest.run_redated hφ hc g settings hmoments,
    fun s ψ w ↦ s.sma_redate ψ w⟩
  · exact (g.history_redated hφ hc settings hmoments).imp fun _ _ _ h ↦ h.2
  · exact (Client.performance_redated hφ hc ha).imp fun _ _ _ h ↦ h.eq

/-- The five days of the market, moved ever further apart. -/
theorem crossover_redated :
    crossoverGraph.history ((twoAssets ⟨5⟩ 40 1).redate fun t ↦ ⟨t.nanoseconds ^ 3⟩).client
        .standard [some ⟨27⟩, some ⟨64⟩, some ⟨125⟩] =
      .ok [(⟨27⟩, ⟨some ⟨27⟩, [(⟨"A"⟩, 1), (⟨"B"⟩, 0)]⟩),
        (⟨64⟩, ⟨some ⟨64⟩, [(⟨"A"⟩, 11 / 24), (⟨"B"⟩, 13 / 24)]⟩),
        (⟨125⟩, ⟨some ⟨125⟩, [(⟨"A"⟩, 1), (⟨"B"⟩, 0)]⟩)] := by
  have hdated : (twoAssets ⟨5⟩ 40 1).DatedIn {t | t ∈ [⟨1⟩, ⟨2⟩, ⟨3⟩, ⟨4⟩, ⟨5⟩]} := by
    intro T hT
    obtain rfl := List.mem_singleton.mp hT
    simp [Table.DatedIn, twoAssets]
  have hcubes : Redates (fun t ↦ ⟨t.nanoseconds ^ 3⟩) {t | t ∈ [⟨1⟩, ⟨2⟩, ⟨3⟩, ⟨4⟩, ⟨5⟩]} := by
    refine ⟨?_, ?_, fun s _ t _ h ↦ Odd.strictMono_pow (by decide : Odd 3) (Instant.lt_iff.mp h)⟩
    · simp only [Set.mem_ofPred_eq]
      decide
    · simp only [Set.mem_ofPred_eq]
      decide
  obtain ⟨-, -, hhistory, -⟩ := Market.redate_outcome crossoverGraph hcubes hdated
  obtain ⟨_, hhistory, rfl⟩ := (hhistory .standard ([⟨3⟩, ⟨4⟩, ⟨5⟩].map some)
    (by simp)).exists_eq_ok twoAssets_history
  exact hhistory

end ScorePortfolio

import ScorePortfolio.Portfolio.Result
import ScorePortfolio.Portfolio.Replay

/-!
# Backtests

A backtest replays a graph over given moments: the allocations, the returns they earn, and the
figures of these.  Any failing moment ends the whole run.
-/

namespace ScorePortfolio

/-- Why a backtest has no result. -/
inductive BacktestError where
  /-- The replay fails. -/
  | replay (cause : ReplayError)
  /-- The figures cannot be computed. -/
  | metrics (cause : MetricsError)

namespace Backtest

/-- The record of the start of a run over a number of moments. -/
def startRecord (g : Graph) (count : Nat) : Record :=
  ⟨.info, s!"Starting backtest of '{g.strategy.asText}' over {count} timestamps..."⟩

/-- The record of the end of a run. -/
def endRecord (r : BacktestResult Float) : Record :=
  ⟨.info, "Backtest complete. Total return: " ++ Decimal.percentage r.totalReturn⟩

variable {α : Type}

/-- The weights of a history as a table, with a column for each asset. -/
def table (history : History α) : Table α :=
  let assets := (history.head?.elim [] fun (_, a) ↦ a.weights).map (·.1)
  ⟨history.map fun (t, _) ↦ some t,
   assets.map fun asset ↦ (.text asset.symbol, history.filterMap fun (_, a) ↦ a.weight? asset)⟩

/-- The description of a run. -/
def description (g : Graph) (settings : Settings) (history : History α) : List (Scalar × Doc) :=
  let ends := history.map fun (t, _) ↦ t.text
  [(.text "strategy", g.strategy), (.text "score", g.scoreName?.elim .null Doc.scalar),
   (.text "start", .text (ends.head?.getD "")), (.text "end", .text (ends.getLast?.getD "")),
   (.text "periods_per_year", .int settings.periodsPerYear)]

variable [Quantity α] [Elementary α]

/-- The result of a replay. -/
def report (g : Graph) (settings : Settings) (history : History α) (returns : Series α) :
    Except MetricsError (BacktestResult α) :=
  (Metrics.ofReturns returns.values settings.periodsPerYear).map fun metrics ↦
    { returns := returns.points.map fun (t, x) ↦ (some t, x)
      allocations := table history
      metrics := metrics.elim [] Metrics.entries
      config := description g settings history }

/-- A backtest of a graph over given moments. -/
def run (g : Graph) (c : Client α) (settings : Settings) (moments : List (Option Instant)) :
    Except BacktestError (BacktestResult α) := do
  let history ← (g.history c settings moments).mapError .replay
  let returns ← (c.returns history).mapError .replay
  (report g settings history returns).mapError .metrics

/-- The records of a backtest after its start. -/
def records (result : Except BacktestError (BacktestResult Float)) : List Record :=
  match result with
  | .ok r => Metrics.records r.days ++ [endRecord r]
  | .error _ => []

end Backtest

end ScorePortfolio

import ScorePortfolio.Portfolio.Metrics
import ScorePortfolio.Market.Table
import ScorePortfolio.Document.Basic
import ScorePortfolio.Decimal.Format

/-!
# Results of a backtest

The returns of a replay, its allocations as a table, its figures and its description, with the text
that sums them up.
-/

namespace ScorePortfolio

/-- What a backtest gives. -/
structure BacktestResult (α : Type) where
  /-- The returns by moment. -/
  returns : List (Option Instant × α)
  /-- The weights by moment and symbol. -/
  allocations : Table α
  /-- The figures by name. -/
  metrics : List (String × Option α)
  /-- The description of the run. -/
  config : List (Scalar × Doc)

namespace BacktestResult

variable {α : Type}

section
variable [Quantity α]

/-- The total return. -/
def totalReturn (r : BacktestResult α) : α := ScorePortfolio.totalReturn (r.returns.map (·.2))

/-- The growth of one unit after each return, by moment. -/
def equity (r : BacktestResult α) : List (Option Instant × Option α) :=
  (r.returns.map (·.1)).zip (equityCurve (r.returns.map (·.2)))

end

/-- The number of returns. -/
def days (r : BacktestResult α) : Nat := r.returns.length

/-- The weights of a row, by label. -/
def row (r : BacktestResult α) (i : Nat) : List (Scalar × α) :=
  r.allocations.columns.filterMap fun (label, cells) ↦ (cells[i]?).map (label, ·)

/-- The weights at a moment, by label. -/
def weightsAt? (r : BacktestResult α) (t : Option Instant) : Option (List (Scalar × α)) :=
  (r.allocations.dates.idxOf? t).map r.row

/-- The rows of the allocations, each with its moment. -/
def rows (r : BacktestResult α) : List (Option Instant × List (Scalar × α)) :=
  r.allocations.dates.zipIdx.map fun (t, i) ↦ (t, r.row i)

/-! ## Entries by written moment -/

/-- Entries by the ISO text of their moments; a repeated moment keeps its first place and its last
entry. -/
def byMoment {β : Type} (entries : List (Option Instant × β)) : List (String × β) :=
  Entries.ofList (· == ·) (entries.map fun (t, x) ↦ (Instant.isoTextOf t, x))

/-- The returns by written moment. -/
def returnEntries (r : BacktestResult α) : List (String × α) := byMoment r.returns

/-- The weights by written moment and label. -/
def allocationEntries (r : BacktestResult α) : List (String × List (Scalar × α)) :=
  byMoment r.rows

/-! ## Summary -/

/-- A first or last row without a date, so that there is no summary. -/
structure NoPeriod where
deriving DecidableEq

/-- The title of a figure. -/
def figureTitles : List (String × String) :=
  [("annualized_return", "Annualized Return"), ("volatility", "Volatility"),
   ("sharpe_ratio", "Sharpe Ratio"), ("max_drawdown", "Max Drawdown")]

/-- The line of the period, if there are allocations. -/
def periodLine (dates : List (Option Instant)) : Except NoPeriod (List String) :=
  match dates.head?, dates.getLast? with
  | some (some first), some (some last) =>
    .ok [s!"Period: {first.dateText} to {last.dateText}"]
  | none, _ | _, none => .ok []
  | _, _ => .error ⟨⟩

/-- The form of a figure, with four decimal places. -/
def figureText (x : Option Float) : String := x.elim NonFinite.nan.text (Decimal.fixed 4)

/-- The lines of the figures that there are. -/
def figureLines (metrics : List (String × Option Float)) : List String :=
  figureTitles.filterMap fun (name, title) ↦
    (metrics.lookup name).map fun x ↦ title ++ ": " ++ figureText x

/-- The summary of a result. -/
def summary (r : BacktestResult Float) : Except NoPeriod String := do
  let strategy := ((Doc.find? (.text "strategy") r.config).getD (.text "N/A")).asText
  let period ← periodLine r.allocations.dates
  let lines := [s!"Strategy: {strategy}", "".pushn '-' (10 + strategy.length)] ++ period ++
    [s!"Days: {r.days}  Assets: {r.allocations.columns.length}",
     "Total Return: " ++ Decimal.percentage r.totalReturn] ++ figureLines r.metrics
  return "\n".intercalate lines

end BacktestResult

end ScorePortfolio

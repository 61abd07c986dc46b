import ScorePortfolio.Document.Yaml.Load
import ScorePortfolio.Graph.Build
import ScorePortfolio.Market.Simulation
import ScorePortfolio.Portfolio.Backtest
import ScorePortfolio.Portfolio.TableReturns
import ScorePortfolio.Proofs.Digraph.Basic
import ScorePortfolio.Proofs.Digraph.Component
import ScorePortfolio.Proofs.Digraph.Order
import ScorePortfolio.Proofs.Entries
import ScorePortfolio.Proofs.Evaluation.Correctness
import ScorePortfolio.Proofs.Evaluation.Failure
import ScorePortfolio.Proofs.Evaluation.History
import ScorePortfolio.Proofs.Evaluation.Meaning
import ScorePortfolio.Proofs.Evaluation.Outputs
import ScorePortfolio.Proofs.Evaluation.Pass
import ScorePortfolio.Proofs.Graph.Built
import ScorePortfolio.Proofs.Graph.Validity
import ScorePortfolio.Proofs.Graph.WellFormed
import ScorePortfolio.Proofs.Market.History
import ScorePortfolio.Proofs.Series.Cut
import ScorePortfolio.Proofs.Series.Increasing
import ScorePortfolio.Proofs.Series.Shared
import ScorePortfolio.Proofs.Series.Windows
import ScorePortfolio.Proofs.Strategy.Dependencies
import ScorePortfolio.Proofs.Strategy.Names
import ScorePortfolio.Proofs.Strategy.Operands
import ScorePortfolio.Proofs.Strategy.Plan
import ScorePortfolio.Proofs.Traversal
import ScorePortfolio.Series.Regular
import ScorePortfolio.Series.Compare
import ScorePortfolio.Strategy.Reading
import ScorePortfolio.Proofs.Market.Rows
import ScorePortfolio.Proofs.Series.Cells
import ScorePortfolio.Proofs.Market.Truncation
import ScorePortfolio.Proofs.Evaluation.Clients
import ScorePortfolio.Proofs.Portfolio.NoLookahead
import ScorePortfolio.Proofs.Portfolio.Replay
import ScorePortfolio.Proofs.Market.Changes
import ScorePortfolio.Proofs.Portfolio.Weights
import ScorePortfolio.Proofs.Portfolio.SelfFinancing
import ScorePortfolio.Proofs.Strategy.Reordering
import ScorePortfolio.Proofs.Graph.Contents
import ScorePortfolio.Proofs.Graph.Reordering
import ScorePortfolio.Proofs.Graph.Core
import ScorePortfolio.Proofs.Evaluation.ByName
import ScorePortfolio.Proofs.Evaluation.Reordering
import ScorePortfolio.Proofs.Evaluation.Core
import ScorePortfolio.Proofs.Series.Columns
import ScorePortfolio.Proofs.Series.ColumnOperations
import ScorePortfolio.Proofs.Series.Made
import ScorePortfolio.Proofs.Number.Nearest
import ScorePortfolio.Proofs.Number.Unpacked
import ScorePortfolio.Proofs.Number.Rounding
import ScorePortfolio.Proofs.Number.Arithmetic
import ScorePortfolio.Proofs.Number.Finite
import ScorePortfolio.Proofs.Market.Universe
import ScorePortfolio.Proofs.Market.Cache
import ScorePortfolio.Proofs.Portfolio.Allocation
import ScorePortfolio.Proofs.Portfolio.FiniteWeights
import ScorePortfolio.Proofs.Portfolio.TableReturns
import ScorePortfolio.Proofs.Graph.Cycles
import ScorePortfolio.Proofs.Number.Special
import ScorePortfolio.Proofs.Portfolio.Outcome
import ScorePortfolio.Proofs.Portfolio.NonFiniteScores
import ScorePortfolio.Proofs.Number.Sums
import ScorePortfolio.Proofs.Number.ArraySums
import ScorePortfolio.Proofs.Portfolio.ZeroWeights
import ScorePortfolio.Proofs.Strategy.Reading
import ScorePortfolio.Proofs.Evaluation.Arena
import ScorePortfolio.Proofs.Evaluation.Requests
import ScorePortfolio.Proofs.Market.Frames
import ScorePortfolio.Proofs.Market.Answers
import ScorePortfolio.Proofs.Market.Days
import ScorePortfolio.Proofs.Number.Missing
import ScorePortfolio.Proofs.Portfolio.Growth
import ScorePortfolio.Proofs.Portfolio.WithinMarket
import ScorePortfolio.Proofs.Market.Calendars
import ScorePortfolio.Proofs.Digraph.Renaming
import ScorePortfolio.Proofs.Strategy.Renaming
import ScorePortfolio.Proofs.Graph.Renaming
import ScorePortfolio.Proofs.Evaluation.Renaming
import ScorePortfolio.Proofs.Series.Join
import ScorePortfolio.Proofs.Strategy.Grammar
import ScorePortfolio.Proofs.Number.Literals
import ScorePortfolio.Proofs.Graph.Literals
import ScorePortfolio.Proofs.Series.Dates
import ScorePortfolio.Proofs.Market.Dates
import ScorePortfolio.Proofs.Evaluation.Dates
import ScorePortfolio.Proofs.Portfolio.Dates
import ScorePortfolio.Proofs.Number.Totals
import ScorePortfolio.Proofs.Portfolio.Normalization
import ScorePortfolio.Proofs.Portfolio.Shares
import ScorePortfolio.Proofs.Portfolio.Drawdown
import ScorePortfolio.Proofs.Portfolio.Declines
import ScorePortfolio.Proofs.Number.Counts
import ScorePortfolio.Proofs.Number.Power
import ScorePortfolio.Proofs.Portfolio.Figures
import ScorePortfolio.Proofs.Graph.Reports
import ScorePortfolio.Proofs.Portfolio.DailyReturns
import ScorePortfolio.Proofs.Portfolio.RowOrder
import ScorePortfolio.Proofs.Series.Pointwise
import ScorePortfolio.Proofs.Series.TrailingMeans
import ScorePortfolio.Proofs.Series.Unordered
import ScorePortfolio.Proofs.Evaluation.Positions
import ScorePortfolio.Proofs.Series.Search
import ScorePortfolio.Proofs.Market.RelativeChanges
import ScorePortfolio.Proofs.Number.Numerals
import ScorePortfolio.Proofs.Series.Rises
import ScorePortfolio.Proofs.Market.Trends
import ScorePortfolio.Proofs.Market.Simulation
import ScorePortfolio.Proofs.Portfolio.AverageGap
import ScorePortfolio.Proofs.Number.Closest
import ScorePortfolio.Proofs.Number.Decimals
import ScorePortfolio.Proofs.Number.Shortest
import ScorePortfolio.Proofs.Number.Spellings
import ScorePortfolio.Proofs.Graph.Numbers

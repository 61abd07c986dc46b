import ScorePortfolio.Portfolio.Weights
import ScorePortfolio.Portfolio.Settings
import ScorePortfolio.Document.Array
import ScorePortfolio.Evaluation.Pass

/-!
# Allocations

An allocation gives the assets of a portfolio their weights as of a moment, in the order of the
symbols. To allocate, every asset of the universe is scored by its own pass over the graph, and the
latest values of the scores become weights; the first failure in the order of the symbols decides.
-/

namespace ScorePortfolio

/-- The weights of a portfolio as of a moment. -/
structure Allocation (α : Type) where
  /-- The moment. -/
  asOf : Option Instant
  /-- The weights, in the order of the symbols. -/
  weights : List (Asset × α)
deriving DecidableEq

namespace Allocation

variable {α : Type}

/-- The allocation of weights in any order. -/
def ofWeights (asOf : Option Instant) (weights : List (Asset × α)) : Allocation α :=
  ⟨asOf, Asset.sortEntries weights⟩

/-- The allocation of weights as documents have them, read in the order of the symbols. -/
def ofDocs (asOf : Option Instant) (weights : List (Asset × Doc)) :
    Except ArrayError (Allocation Float) := do
  let read ← (Asset.sortEntries weights).mapM fun (asset, doc) ↦
    (NumberArray.number doc).map fun x ↦ (asset, x)
  return ⟨asOf, read⟩

/-- The weight of an asset. -/
def weight? (a : Allocation α) (asset : Asset) : Option α := a.weights.lookup asset

/-- The exactly rounded sum of the weights. -/
def total [Quantity α] (a : Allocation α) : Except TotalFailure α :=
  Quantity.total (a.weights.map (·.2))

end Allocation

/-- Why there is no allocation. -/
inductive AllocationError where
  /-- The worker pool cannot be made. -/
  | pool (cause : PoolError)
  /-- A pass fails. -/
  | evaluation (cause : EvaluationError)
  /-- The score of an asset has no points. -/
  | emptyScore (asset : Asset) (asOf : Option Instant)
  /-- The scores give no weights. -/
  | weights (asOf : Option Instant) (cause : WeightsError)
deriving DecidableEq

/-- The message of an error, where it has one of its own. -/
def AllocationError.message? : AllocationError → Option String
  | pool _ => none
  | evaluation cause => cause.message?
  | emptyScore asset asOf =>
    some s!"score for {asset.symbol} as of {Instant.textOf asOf} is empty"
  | weights asOf cause => cause.message? (Instant.textOf asOf)

namespace Graph

variable {α : Type} [Quantity α]

/-- The scores of assets as of a moment, each asset once, in the order of the symbols. -/
def scoreAssets (g : Graph) (c : Client α) (settings : Settings) (asOf : Option Instant)
    (assets : List Asset) : Except AllocationError (List (Asset × AssetScore α)) := do
  let sorted := Asset.sort assets
  (settings.checkPool sorted.length).mapError .pool
  let scores ← sorted.mapM fun asset ↦
    ((g.evaluate c asset asOf).result.map fun s ↦ (asset, s)).mapError .evaluation
  return Entries.ofList (· == ·) scores

/-- The latest value of the score of an asset, zero where it is negative. -/
def latestScore (asOf : Option Instant) (asset : Asset) (s : AssetScore α) :
    Except AllocationError (Asset × α) :=
  match s.score.zeroNegatives.lastPoint? with
  | some (_, x) => .ok (asset, x)
  | none => .error (.emptyScore asset asOf)

/-- The allocation as of a moment over the universe of a client. -/
def allocate (g : Graph) (c : Client α) (settings : Settings) (asOf : Option Instant) :
    Except AllocationError (Allocation α) := do
  let scores ← g.scoreAssets c settings asOf c.sortedAssets
  let latest ← scores.mapM fun (asset, s) ↦ latestScore asOf asset s
  let weights ← (normalize latest).mapError (.weights asOf)
  return .ofWeights asOf weights

end Graph

end ScorePortfolio

import ScorePortfolio.Portfolio.Allocation
import ScorePortfolio.Market.TableClient

/-!
# Replays over moments

A strategy is replayed over strictly ascending moments.  Each moment has its allocation, which uses
nothing later; the return at a moment is earned by the allocation of the one before, from the
relative price change at that moment.  The first moment has no return.
-/

namespace ScorePortfolio

/-- Why a replay has no result. -/
inductive ReplayError where
  /-- There are no moments. -/
  | noMoments
  /-- A moment is missing, or not after the one before it. -/
  | notAscending
  /-- There is no allocation at some moment. -/
  | allocation (cause : AllocationError)
  /-- There is no price change of an allocated asset. -/
  | evaluation (cause : EvaluationError)
  /-- A moment with a return lies beyond the range of an index. -/
  | range (cause : OutOfRange)
deriving DecidableEq

/-- The message of an error, where it has one of its own. -/
def ReplayError.message? : ReplayError → Option String
  | noMoments => some "Backtest needs at least one timestamp"
  | notAscending => some "Backtest timestamps must be strictly ascending without duplicates"
  | allocation cause => cause.message?
  | evaluation cause => cause.message?
  | range _ => none

/-- The moments of a replay, if there are some and they ascend. -/
def replayMoments (moments : List (Option Instant)) : Except ReplayError (List Instant) :=
  match moments, Series.presentIndex? moments with
  | [], _ => .error .noMoments
  | _, none => .error .notAscending
  | _, some ts => if Series.increasing ts then .ok ts else .error .notAscending

/-- Allocations by moment. -/
abbrev History (α : Type) := List (Instant × Allocation α)

variable {α : Type} [Quantity α]

/-- The allocations at given moments. -/
def Graph.history (g : Graph) (c : Client α) (settings : Settings)
    (moments : List (Option Instant)) : Except ReplayError (History α) := do
  (← replayMoments moments).mapM fun t ↦
    ((g.allocate c settings (some t)).map fun a ↦ (t, a)).mapError .allocation

namespace Client

/-- The relative price change of an asset at exactly a moment. -/
def changeAt (c : Client α) (t : Instant) (asset : Asset) : Except EvaluationError α := do
  let r : Request := ⟨asset, some t, some changeField⟩
  let s ← r.send c
  match s.get? (some t) with
  | some x => return x
  | none => throw (.request r (.noChange (some t)))

/-- The return at a moment of a portfolio with the given weights: the sum of the price changes by
weight, from left to right. -/
def portfolioReturn (c : Client α) (t : Instant) (weights : List (Asset × α)) :
    Except EvaluationError α :=
  weights.foldlM (fun sum (asset, weight) ↦
    (c.changeAt t asset).map fun change ↦ sum + weight * change) Quantity.zero

/-- The returns over a history, from the second moment on. -/
def returns (c : Client α) (history : History α) : Except ReplayError (Series α) := do
  let points ← (steps history).mapM fun ((_, before), (t, _)) ↦
    ((c.portfolioReturn t before.weights).map fun x ↦ (t, x)).mapError .evaluation
  let fitted ← points.mapM fun (t, x) ↦ (t.fit.map fun t ↦ (t, x)).mapError .range
  return ⟨fitted⟩

/-- The returns over allocations by moments that are still to be checked. -/
def performance (c : Client α) (allocations : List (Option Instant × Allocation α)) :
    Except ReplayError (Series α) := do
  let ts ← replayMoments (allocations.map (·.1))
  c.returns (ts.zip (allocations.map (·.2)))

end Client

end ScorePortfolio

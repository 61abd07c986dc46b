import ScorePortfolio.Number.Quantity
import ScorePortfolio.Market.Asset
import ScorePortfolio.Time.Spelling

/-!
# Weights from scores

Scores become weights of a long-only portfolio: a negative score counts as zero, and each weight is
the share of its score in the sum of all.
-/

namespace ScorePortfolio

/-- Why scores give no weights. -/
inductive WeightsError where
  /-- The score of an asset is infinite or not a number. -/
  | nonFinite (asset : Asset) (score : NonFinite)
  /-- The scores have no sum. -/
  | total (cause : TotalFailure)
  /-- No score is positive. -/
  | degenerate
deriving DecidableEq

namespace WeightsError

/-- The message of an error at a moment, where it has one of its own. -/
def message? (moment : String) : WeightsError → Option String
  | nonFinite asset score => some s!"non-finite score {score.text} for {asset.symbol} at {moment}"
  | total _ => none
  | degenerate =>
    some s!"Degenerate allocation at {moment}: sum of zeroed scores is zero"

end WeightsError

variable {α : Type} [Quantity α]

/-- The score, or zero where it is not positive. -/
def longOnly (score : α) : α := if Quantity.lt Quantity.zero score then score else Quantity.zero

/-- The scores with those that are not positive set to zero, if all are finite. -/
def longOnlyScores (scores : List (Asset × α)) : Except WeightsError (List (Asset × α)) :=
  scores.mapM fun (asset, score) ↦
    match Quantity.nonFinite? score with
    | some kind => .error (.nonFinite asset kind)
    | none => .ok (asset, longOnly score)

/-- The weight of each asset: its share of the sum of the positive scores. -/
def normalize (scores : List (Asset × α)) : Except WeightsError (List (Asset × α)) := do
  let zeroed ← longOnlyScores scores
  let sum ← (Quantity.total (zeroed.map (·.2))).mapError .total
  if Quantity.eq sum Quantity.zero then throw .degenerate
  return zeroed.map fun (asset, score) ↦ (asset, score / sum)

end ScorePortfolio

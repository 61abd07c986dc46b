import ScorePortfolio.Market.Table

/-!
# Returns from a table of weights

The returns of a portfolio computed column by column: the price change of each row of a price table
from the row above, at the dates of the weights, times the weights of the row above.  Rows are taken
as they stand.
-/

namespace ScorePortfolio

/-- Why tables give no returns. -/
inductive TableReturnsError where
  /-- The dates of the prices repeat, so that they cannot be looked up. -/
  | repeatedDates
  /-- The prices have no column of a label. -/
  | noColumn (label : Scalar)
deriving DecidableEq

namespace TableReturns

variable {α : Type} [Quantity α]

/-- The change of each cell from the one above; the first has none. -/
def changes (cells : List α) : List (Option α) :=
  match cells with
  | [] => []
  | _ :: _ => none :: (steps cells).map fun (x, y) ↦ Quantity.present? (Quantity.change x y)

/-- The changes of a column of prices at given dates: none where there is no such date. -/
def changesAt (prices : Table α) (dates : List (Option Instant)) (cells : List α) :
    List (Option α) :=
  if prices.dates = dates then changes cells
  else
    let dated := prices.dates.zip (changes cells)
    dates.map fun date ↦ (dated.lookup date).join

/-- The products of lagged weights and changes, of the second row and those below. -/
def contributions (weights : List α) (changes : List (Option α)) : List (Option α) :=
  (weights.zip changes.tail).map fun (w, change) ↦ change.bind fun x ↦ Quantity.present? (w * x)

/-- The contributions of a column of weights. -/
def column (prices : Table α) (dates : List (Option Instant)) (label : Scalar) (weights : List α) :
    Except TableReturnsError (List (Option α)) :=
  match prices.cells? label with
  | some cells => .ok (contributions weights (changesAt prices dates cells))
  | none => .error (.noColumn label)

/-- The sum of the contributions that are there, in the order of the columns: the columns are added
to the sums of all rows one after the other. -/
def rowSum (contributions : List (Option α)) : Option α :=
  match contributions.filterMap id with
  | [] => none
  | present => some (Quantity.sum present)

/-- The returns of a table of weights under a table of prices, from the second row on. -/
def ofTables (weights prices : Table α) :
    Except TableReturnsError (List (Option Instant × Option α)) := do
  if prices.dates ≠ weights.dates ∧ !prices.dates.Nodup then throw .repeatedDates
  let columns ← weights.columns.mapM fun (label, cells) ↦ column prices weights.dates label cells
  let rows := (List.range (weights.dates.length - 1)).map fun i ↦
    rowSum (columns.map fun contributions ↦ (contributions[i]?).join)
  return weights.dates.tail.zip rows

end TableReturns

end ScorePortfolio

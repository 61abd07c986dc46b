import ScorePortfolio.Portfolio.Compounding
import ScorePortfolio.Number.ArraySum
import ScorePortfolio.Number.Elementary
import ScorePortfolio.Log

/-!
# Performance figures

The figures of a list of returns.  Mean and deviation leave out what is not a number; a figure
without a value is `none`.
-/

namespace ScorePortfolio

/-- The figures of at least two returns. -/
structure Metrics (α : Type) where
  totalReturn : Option α
  annualizedReturn : Option α
  meanReturn : Option α
  volatility : Option α
  sharpeRatio : Option α
  maxDrawdown : Option α
  winRate : Option α
  lossRate : Option α

/-- Why there are no figures. -/
inductive MetricsError where
  /-- A year, or the span of the returns in years, is zero. -/
  | zeroPeriods
  /-- The number of periods in a year is beyond that of a machine word. -/
  | tooManyPeriods
  /-- The annual return is beyond the range of the numbers. -/
  | overflow
deriving DecidableEq

/-- The record of too few returns for figures. -/
def fewReturnsRecord : Record :=
  ⟨.warning, "compute_metrics: fewer than 2 return periods, returning empty metrics"⟩

namespace Metrics

variable {α : Type}

/-- The figures by name. -/
def entries (m : Metrics α) : List (String × Option α) :=
  [("total_return", m.totalReturn), ("annualized_return", m.annualizedReturn),
   ("mean_return", m.meanReturn), ("volatility", m.volatility), ("sharpe_ratio", m.sharpeRatio),
   ("max_drawdown", m.maxDrawdown), ("win_rate", m.winRate), ("loss_rate", m.lossRate)]

variable [Quantity α]

/-! ## Mean and deviation -/

/-- How many of the values are numbers. -/
def count (xs : List α) : Nat := xs.countP (!Quantity.isMissing ·)

/-- The sum of a function over the values that are numbers.  The others keep their places in the
array, with a zero each. -/
def sumOver (f : α → α) (xs : List α) : α :=
  Quantity.arraySum (xs.map fun x ↦ if Quantity.isMissing x then Quantity.zero else f x)

/-- The mean of the values that are numbers. -/
def mean? (xs : List α) : Option α :=
  if count xs = 0 then none else some (sumOver id xs / Quantity.ofInt (count xs))

/-- The standard deviation of the values that are numbers, of which there have to be two. -/
def deviation? [Elementary α] (xs : List α) : Option α :=
  if count xs < 2 then none
  else
    let mean := sumOver id xs / Quantity.ofInt (count xs)
    let squares := sumOver (fun x ↦ (mean - x) * (mean - x)) xs
    some (Elementary.root (squares / Quantity.ofInt (count xs - 1)))

/-- The share of the values for which a test holds. -/
def share (test : α → Bool) (xs : List α) : α :=
  Quantity.ofInt (xs.countP test) / Quantity.ofInt xs.length

/-! ## Drawdown -/

/-- The larger of two values, the second where they are equal. -/
def larger (x y : α) : α := if Quantity.lt y x then x else y

/-- The smaller of two values, the second where they are equal. -/
def smaller (x y : α) : α := if Quantity.lt x y then x else y

/-- The decline of each value from the largest one so far, relative to it, given the largest one of
those before. -/
def declinesFrom (peak : Option α) : List (Option α) → List (Option α)
  | [] => []
  | none :: values => none :: declinesFrom peak values
  | some x :: values =>
    let top := peak.elim x (larger · x)
    Quantity.present? ((x - top) / top) :: declinesFrom (some top) values

/-- The smallest of the values that are there. -/
def smallest? (values : List (Option α)) : Option α :=
  match values.filterMap id with
  | [] => none
  | x :: xs => some (xs.foldl smaller x)

/-- The deepest decline of the growth of one unit from its peak. -/
def maxDrawdown? (returns : List α) : Option α :=
  smallest? (declinesFrom none (equityCurve returns))

/-! ## Annual figures -/

/-- The root of the number of periods in a year. -/
def rootPeriods [Elementary α] (periods : Int) : Except MetricsError α :=
  if periods < -9223372036854775808 ∨ 18446744073709551616 ≤ periods then .error .tooManyPeriods
  else .ok (Elementary.root (Quantity.ofInt periods))

/-- The mean by the deviation, for a year. -/
def sharpe? [Elementary α] (returns : List α) (periods : Int) : Except MetricsError (Option α) :=
  match deviation? returns, mean? returns with
  | some deviation, some mean =>
    if Quantity.lt Quantity.zero deviation then
      (rootPeriods periods).map fun root ↦ some (mean / deviation * root)
    else .ok none
  | _, _ => .ok none

/-- The total return brought to one year; a total loss has none. -/
def annualized? [Elementary α] (total : α) (count : Nat) (periods : Int) :
    Except MetricsError (Option α) :=
  let years : α := Quantity.ofInt count / Quantity.ofInt periods
  if periods = 0 then .error .zeroPeriods
  else if Quantity.le total (Quantity.ofInt (-1)) then .ok none
  else if Quantity.eq years Quantity.zero then .error .zeroPeriods
  else
    match Elementary.power (Quantity.one + total) (Quantity.one / years) with
    | some growth => .ok (some (growth - Quantity.one))
    | none => .error .overflow

/-- The figures of returns.  Fewer than two have none. -/
def ofReturns [Elementary α] (returns : List α) (periods : Int) :
    Except MetricsError (Option (Metrics α)) := do
  if returns.length < 2 then return none
  let sharpe ← sharpe? returns periods
  let total := ScorePortfolio.totalReturn returns
  let annualized ← annualized? total returns.length periods
  let root ← rootPeriods periods
  return some {
    totalReturn := Quantity.present? total
    annualizedReturn := annualized.bind Quantity.present?
    meanReturn := mean? returns
    volatility := (deviation? returns).map (· * root)
    sharpeRatio := sharpe
    maxDrawdown := maxDrawdown? returns
    winRate := some (share (Quantity.lt Quantity.zero ·) returns)
    lossRate := some (share (Quantity.lt · Quantity.zero) returns) }

/-- The records of computing the figures of a number of returns. -/
def records (count : Nat) : List Record := if count < 2 then [fewReturnsRecord] else []

end Metrics

end ScorePortfolio

import ScorePortfolio.Series.Basic
import ScorePortfolio.Decimal.Format

/-!
# Comparison and summary of series

Two series are equal if they have the same moments and equal values; not-a-number equals nothing.
The summary of a series names its length, its ends and its latest value.
-/

namespace ScorePortfolio

namespace Quantity

variable {α : Type} [Quantity α]

/-- Whether a value is close to a finite one: within a tolerance of which one part is relative to
it. Equal values are close also when they are infinite. -/
def isClose (relative absolute x y : α) : Bool :=
  (isFinite y && le (abs (x - y)) (absolute + relative * abs y)) || eq x y

end Quantity

namespace Series

variable {α : Type} [Quantity α]

/-- Whether two series have the same moments, and values that stand in a relation. -/
def agree (related : α → α → Bool) (a b : Series α) : Bool :=
  a.index == b.index && (a.values.zip b.values).all fun (x, y) ↦ related x y

/-- Whether two series have the same moments and equal values. -/
def same (a b : Series α) : Bool := agree Quantity.eq a b

/-- Whether two series have the same moments and close values. -/
def isClose (relative absolute : α) (a b : Series α) : Bool :=
  agree (Quantity.isClose relative absolute) a b

/-- The relative tolerance where none is given. -/
def relativeTolerance : Float := 1e-9

/-- The absolute tolerance where none is given. -/
def absoluteTolerance : Float := 1e-12

/-- The one-line summary of a series of doubles. -/
def summary (s : Series Float) : String :=
  match s.points.head?, s.lastPoint? with
  | some (first, _), some (last, value) =>
    s!"TimeSeries(len={s.length}, first={first.text}, last={last.text}, last_value=" ++
      Decimal.general 6 value ++ ")"
  | _, _ => "TimeSeries(len=0)"

end Series

end ScorePortfolio

import ScorePortfolio.Series.Basic
import ScorePortfolio.Number.ArraySum

/-!
# Windows, changes and clamps

The moving average of a series, its relative changes from point to point, and its values with the
negative ones set to zero.  Windows and changes count points, never calendar days.
-/

namespace ScorePortfolio

/-- The runs of `w` consecutive items, in order. -/
def windows {β : Type} (w : Nat) : List β → List (List β)
  | [] => []
  | x :: xs =>
    let window := (x :: xs).take w
    if window.length = w then window :: windows w xs else []

/-- Each item but the first, after the one before it. -/
def steps {β : Type} (xs : List β) : List (β × β) := xs.zip xs.tail

namespace Quantity

variable {α : Type} [Quantity α]

/-- The mean of an array. -/
def mean (xs : List α) : α := arraySum xs / ofInt xs.length

/-- The change from one value to the next, relative to the first. -/
def change (previous next : α) : α := next / previous - one

/-- The value, or zero in the place of a negative one. -/
def clamp (x : α) : α := if lt x zero then zero else x

end Quantity

namespace Series

variable {α : Type} [Quantity α]

/-- The means of the trailing windows of `w` points, each at the last moment of its window. -/
def movingAverage (s : Series α) (w : Nat) : Series α :=
  ⟨(s.index.drop (w - 1)).zip ((windows w s.values).map Quantity.mean)⟩

/-- The simple moving average over a window, which has to fit into the series. -/
def sma (s : Series α) (window : Int) : Except SeriesError (Series α) :=
  if window < 1 then .error (.windowTooSmall window)
  else if s.length < window then .error (.windowTooLong window s.length)
  else .ok (s.movingAverage window.toNat)

/-- The values with the negative ones set to zero. -/
def zeroNegatives (s : Series α) : Series α := s.map Quantity.clamp

/-- The relative change from each point to the next, at the later moment. -/
def changes (s : Series α) : Series α :=
  ⟨(steps s.points).map fun ((_, x), (t, y)) ↦ (t, Quantity.change x y)⟩

/-- The relative changes, none of which may start from zero. -/
def relativeChange (s : Series α) : Except SeriesError (Series α) :=
  if s.values.dropLast.any (Quantity.eq · Quantity.zero) then .error .changeFromZero
  else .ok s.changes

end Series

end ScorePortfolio

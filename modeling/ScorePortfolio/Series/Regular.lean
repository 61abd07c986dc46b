import ScorePortfolio.Series.Basic
import ScorePortfolio.Time.Step

/-!
# Series on a regular index

The values of an array at moments that follow each other at equal steps.
-/

namespace ScorePortfolio

/-- The first moment of a regular index where none is given: the start of 2010. -/
def Instant.firstRegular : Instant := ⟨14610 * Instant.perDay⟩

/-- Why there is no series on a regular index. -/
inductive RegularError where
  /-- The values are no list. -/
  | notList
  /-- There is no moment to start at. -/
  | noStart
  /-- The step cannot be taken. -/
  | step (cause : StepError)
  /-- A moment lies beyond the range of an index. -/
  | range (cause : OutOfRange)
  /-- The series cannot be built. -/
  | series (cause : SeriesError)

/-- The series of an array's values from a moment on, at a written step. -/
def Series.regular (array : NumberArray) (start : Option Instant) (step : String) :
    Except RegularError (Series Float) := do
  let count ← (array.shape.head?.elim (.error .notList) .ok)
  let start ← start.elim (.error .noStart) .ok
  let step ← (Step.parse step).mapError .step
  let index ← ((Step.instants start step count).mapM Instant.fit).mapError .range
  (Series.ofArray (index.map some) array).mapError .series

end ScorePortfolio

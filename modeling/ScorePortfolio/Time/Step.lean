import ScorePortfolio.Time.Spelling

/-!
# Steps of a regular index

A step is an optional signed count and a unit: `D`, `2D`, `-36h`, `250us`.
-/

namespace ScorePortfolio

/-- Why a text is no step. -/
inductive StepError where
  /-- The unit is none of the known ones, or there is something before it that is no count. -/
  | unknown
  /-- The step does not move. -/
  | zero
deriving DecidableEq, Repr

namespace Step

/-- The units, in nanoseconds. -/
def units : List (String × Nat) :=
  [("D", Instant.perDay), ("h", 3600 * Instant.perSecond), ("min", 60 * Instant.perSecond),
   ("s", Instant.perSecond), ("ms", 1000000), ("us", 1000), ("ns", 1)]

/-- The step that a text spells, in nanoseconds.  A count without digits is one. -/
def parse (s : String) : Except StepError Int :=
  let (negative, cs) := Decimal.splitSign s.toList
  let digits := cs.takeWhile Char.isDigit
  match units.lookup (String.ofList (cs.dropWhile Char.isDigit)) with
  | none => .error .unknown
  | some unit =>
    let count := if digits.isEmpty then 1 else Decimal.natOfDigits digits
    if count = 0 then .error .zero
    else .ok (if negative then -(count * unit : Nat) else (count * unit : Nat))

/-- Moments at equal steps. -/
def instants (start : Instant) (step : Int) (count : Nat) : List Instant :=
  (List.range count).map fun i : Nat ↦ start.after (step * i)

end Step

end ScorePortfolio

/-!
# The Gregorian calendar

Days are counted from the first of January 1970, in both directions.  The calendar repeats after 400
years, which are 146097 days.
-/

namespace ScorePortfolio

/-- A day of the calendar. -/
structure Date where
  /-- The year. -/
  year : Int
  /-- The month, from one. -/
  month : Nat
  /-- The day of the month, from one. -/
  day : Nat
deriving DecidableEq, Repr

namespace Date

/-- Whether a year has a 29th of February. -/
def isLeap (year : Int) : Bool := year % 4 == 0 && (year % 100 != 0 || year % 400 == 0)

/-- The lengths of the months of a year. -/
def monthLengths (year : Int) : List Nat :=
  [31, if isLeap year then 29 else 28, 31, 30, 31, 30, 31, 31, 30, 31, 30, 31]

/-- Whether the calendar has the date. -/
def IsValid (d : Date) : Prop :=
  1 ≤ d.month ∧ 1 ≤ d.day ∧ ∃ length ∈ (monthLengths d.year)[d.month - 1]?, d.day ≤ length

instance (d : Date) : Decidable d.IsValid :=
  inferInstanceAs (Decidable (_ ∧ _ ∧ ∃ length ∈ (monthLengths d.year)[d.month - 1]?, _))

/-- The days from the start of year one to the start of a year. -/
def daysBeforeYear (year : Int) : Int :=
  let past := year - 1
  365 * past + past / 4 - past / 100 + past / 400

/-- The days from the start of year one to the start of 1970. -/
def epochDays : Int := 719162

/-- The days of the year before the first of a month. -/
def daysBeforeMonth (year : Int) (month : Nat) : Nat :=
  ((monthLengths year).take (month - 1)).foldl (· + ·) 0

/-- The number of a date's day, zero being the first of January 1970. -/
def dayNumber (d : Date) : Int :=
  daysBeforeYear d.year + daysBeforeMonth d.year d.month + (d.day - 1) - epochDays

/-- The month and its day, from a zero-based day of the year and the lengths of the months left. -/
def monthDay (month : Nat) : Nat → List Nat → Nat × Nat
  | n, [] => (month, n + 1)
  | n, length :: lengths =>
    if n < length then (month, n + 1) else monthDay (month + 1) (n - length) lengths

/-- The year of a day counted from the start of year one, and the zero-based day of that year. -/
def yearOf (n : Int) : Int × Nat :=
  let era := n / 146097
  let n := (n % 146097).toNat
  let century := min (n / 36524) 3
  let n := n - 36524 * century
  let quad := n / 1461
  let n := n % 1461
  let rest := min (n / 365) 3
  (400 * era + 100 * century + 4 * quad + rest + 1, n - 365 * rest)

/-- The date of a day's number. -/
def ofDayNumber (n : Int) : Date :=
  let (year, dayOfYear) := yearOf (n + epochDays)
  let (month, day) := monthDay 1 dayOfYear (monthLengths year)
  ⟨year, month, day⟩

example : dayNumber ⟨1970, 1, 1⟩ = 0 := by decide
example : ofDayNumber 11016 = ⟨2000, 2, 29⟩ := by decide
example : ¬ (⟨2023, 2, 29⟩ : Date).IsValid := by decide

end Date

end ScorePortfolio

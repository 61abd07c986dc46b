import ScorePortfolio.Time.Instant
import ScorePortfolio.Time.Calendar
import ScorePortfolio.Decimal.Digits
import ScorePortfolio.Decimal.Literal

/-!
# Written moments

A moment is written as a date, and maybe a time of day down to nanoseconds: `2020-01-31`,
`2020-01-31 09:30`, `2020-01-31T09:30:00.25`.  Its own written form always shows the seconds, and a
fraction of six or nine digits if there is one.
-/

namespace ScorePortfolio

namespace Instant

/-- The nanoseconds of a second. -/
def perSecond : Nat := 1000000000

/-- The nanoseconds of a day. -/
def perDay : Nat := 86400 * perSecond

/-! ## Reading -/

/-- A number of exactly the given count of digits, with the rest. -/
def number? (count : Nat) (cs : List Char) : Option (Nat × List Char) :=
  let digits := cs.take count
  if digits.length = count ∧ digits.all Char.isDigit then
    some (Decimal.natOfDigits digits, cs.drop count)
  else none

/-- The rest after a given character. -/
def mark? (c : Char) : List Char → Option (List Char)
  | d :: cs => if d = c then some cs else none
  | [] => none

/-- A date, with the rest. -/
def date? (cs : List Char) : Option (Date × List Char) := do
  let (year, cs) ← number? 4 cs
  let (month, cs) ← number? 2 (← mark? '-' cs)
  let (day, cs) ← number? 2 (← mark? '-' cs)
  let date : Date := ⟨year, month, day⟩
  if 1 ≤ year ∧ date.IsValid then some (date, cs) else none

/-- The nanoseconds of a fraction of a second: nothing, or a point and one to nine digits. -/
def fraction? : List Char → Option Nat
  | [] => some 0
  | c :: digits =>
    if c = '.' ∧ 1 ≤ digits.length ∧ digits.length ≤ 9 ∧ digits.all Char.isDigit then
      some (Decimal.natOfDigits digits * Nat.pow 10 (9 - digits.length))
    else none

/-- The nanoseconds of the seconds of a time of day: nothing, or a colon and the seconds. -/
def seconds? : List Char → Option Nat
  | [] => some 0
  | cs => do
    let (seconds, cs) ← number? 2 (← mark? ':' cs)
    if seconds < 60 then some (seconds * perSecond + (← fraction? cs)) else none

/-- The nanoseconds of a time of day: nothing, or a separator, the hour, the minute and the
seconds. -/
def timeOfDay? : List Char → Option Nat
  | [] => some 0
  | c :: cs => do
    let (hour, cs) ← number? 2 cs
    let (minute, cs) ← number? 2 (← mark? ':' cs)
    if (c = 'T' ∨ c = ' ') ∧ hour < 24 ∧ minute < 60 then
      some ((hour * 60 + minute) * 60 * perSecond + (← seconds? cs))
    else none

/-- The moment that a text spells. -/
def parse? (s : String) : Option Instant := do
  let (date, cs) ← date? s.toList
  some ⟨date.dayNumber * perDay + (← timeOfDay? cs)⟩

/-! ## Writing -/

/-- The date of a moment. -/
def date (t : Instant) : Date := Date.ofDayNumber (t.nanoseconds / perDay)

/-- The nanoseconds since midnight. -/
def sinceMidnight (t : Instant) : Nat := (t.nanoseconds % perDay).toNat

/-- The written fraction of a second: none, whole microseconds, or nanoseconds. -/
def fractionText (nanoseconds : Nat) : String :=
  if nanoseconds = 0 then ""
  else if nanoseconds % 1000 = 0 then "." ++ Decimal.padded 6 (nanoseconds / 1000)
  else "." ++ Decimal.padded 9 nanoseconds

/-- The written time of day. -/
def timeText (t : Instant) : String :=
  let seconds := t.sinceMidnight / perSecond
  Decimal.padded 2 (seconds / 3600) ++ ":" ++ Decimal.padded 2 (seconds / 60 % 60) ++ ":" ++
    Decimal.padded 2 (seconds % 60) ++ fractionText (t.sinceMidnight % perSecond)

/-- The written date. -/
def dateText (t : Instant) : String :=
  Decimal.padded 4 t.date.year.toNat ++ "-" ++ Decimal.padded 2 t.date.month ++ "-" ++
    Decimal.padded 2 t.date.day

/-- The written form, a space between date and time. -/
def text (t : Instant) : String := t.dateText ++ " " ++ t.timeText

/-- The written form with a `T` between date and time. -/
def isoText (t : Instant) : String := t.dateText ++ "T" ++ t.timeText

/-- The written form of the missing moment. -/
def missingText : String := "NaT"

/-- The written form of a moment that may be missing. -/
def textOf (t : Option Instant) : String := t.elim missingText text

/-- The written form with a `T` of a moment that may be missing. -/
def isoTextOf (t : Option Instant) : String := t.elim missingText isoText

example : (parse? "2024-02-29T23:59:59.5").map text = some "2024-02-29 23:59:59.500000" := by
  decide
example : parse? "2023-02-29" = none := by decide

end Instant

end ScorePortfolio

import ScorePortfolio.Market.TableClient
import ScorePortfolio.Number.Elementary
import ScorePortfolio.Series.Regular

/-!
# A simulated market

Three assets over six half turns of an angle: the first swings around ten, the second around five in
the opposite direction, and the third rises steadily.  All prices stay positive.
-/

namespace ScorePortfolio

namespace Simulation

variable {α : Type} [Quantity α] [Elementary α]

/-- The days of the market where no number is given. -/
def defaultDays : Int := 1000

/-- The angle of half a turn. -/
def halfTurn : α := Quantity.ofFloat 3.141592653589793

/-- The last angle. -/
def lastAngle : α := Quantity.ofInt 6 * halfTurn

/-- Equally spaced angles from zero to the last one. -/
def angles (n : Nat) : List α :=
  let step := lastAngle / Quantity.ofInt (n - 1)
  (List.range n).map fun i ↦ if i + 1 = n then lastAngle else Quantity.ofInt i * step

/-- The swing of a price around a level. -/
def swing (level : Int) (angle : α) : α :=
  Quantity.ofInt level + Quantity.ofFloat 0.5 * Elementary.sine angle

/-- The columns of the market. -/
def columns (n : Nat) : List (Scalar × List α) :=
  let x := angles n
  [(.text "A", x.map (swing 10)), (.text "B", x.map fun x ↦ swing 5 (x + halfTurn)),
   (.text "C", x.map fun x ↦ Quantity.ofInt 10 + Quantity.ofFloat 0.1 * x)]

/-- Too few days for a market. -/
structure TooShort where
  /-- The number of days asked for. -/
  days : Int

/-- The message for too few days. -/
def TooShort.message (e : TooShort) : String := s!"n must be >= 2, got {e.days}"

/-- The prices on a number of consecutive days. -/
def prices (days : Int) (start : Instant) : Except TooShort (Table α) :=
  if days < 2 then .error ⟨days⟩
  else
    .ok ⟨(Step.instants start Instant.perDay days.toNat).map some, columns days.toNat⟩

/-- The market of the simulated prices. -/
def market (days : Int) (start : Instant) : Except TooShort (Market α) :=
  (prices days start).map fun table ↦ Market.ofTables table [] closeField

end Simulation

end ScorePortfolio

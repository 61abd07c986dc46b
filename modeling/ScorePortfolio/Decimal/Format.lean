import ScorePortfolio.Number.Quantity
import ScorePortfolio.Decimal.Digits

/-!
# Doubles at a given precision

The forms with a fixed number of significant digits or of decimal places.  Each is correctly rounded
from the exact value, a tie going to the even digit; a negative zero keeps its sign.
-/

namespace ScorePortfolio.Decimal

/-- The form of a double from the form of a magnitude in units. -/
def signed (form : Nat → String) (x : Float) : String :=
  match Binary.nonFinite? x with
  | some kind => kind.text
  | none => (if Binary.isNegative x then "-" else "") ++ form (Binary.magnitude x)

/-- The leading digits of a number of units; a zero has zeros only. -/
def leadingUnits (count units : Nat) : Leading :=
  if units = 0 then ⟨0, 0⟩ else leading count units Binary.unitsInOne

/-- Scientific notation: one digit, a point, the other digits, the exponent. -/
def scientificUnits (count units : Nat) : String :=
  let lead := leadingUnits count units
  pointed (count - 1) lead.significand ++ exponentText lead.first

/-- A double in scientific notation with the given number of significant digits. -/
def scientific (count : Nat) (x : Float) : String := signed (scientificUnits count) x

/-- A double with the given number of decimal places. -/
def fixed (places : Nat) (x : Float) : String :=
  signed (fun units ↦ pointed places (divHalfEven (units * Nat.pow 10 places) Binary.unitsInOne)) x

/-- A double as a percentage with two decimal places. -/
def percentage (x : Float) : String := fixed 2 (x * 100.0) ++ "%"

/-- A text with a point, without the zeros and then the point at its end. -/
def dropFraction (s : String) : String :=
  if s.toList.contains '.' then
    String.ofList ((dropZeros s.toList).reverse.dropWhile (· == '.')).reverse
  else s

/-- General notation of a magnitude: positional while the first digit counts at least `10 ^ (-4)`
and the digits reach the point, scientific otherwise; zeros at the end are dropped. -/
def generalUnits (count units : Nat) : String :=
  let lead := leadingUnits count units
  if lead.first < -4 ∨ (count : Int) ≤ lead.first then
    dropFraction (pointed (count - 1) lead.significand) ++ exponentText lead.first
  else
    dropFraction (pointed (count - 1 - lead.first).toNat lead.significand)

/-- A double in general notation with at most the given number of significant digits. -/
def general (count : Nat) (x : Float) : String := signed (generalUnits count) x

end ScorePortfolio.Decimal

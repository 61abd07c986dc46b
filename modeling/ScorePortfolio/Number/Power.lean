import ScorePortfolio.Number.Binary

/-!
# Powers of doubles

A power is computed from the logarithm of its base in fixed point, with enough bits that the double
nearest to the result is the double nearest to the exact power in all but astronomically rare cases.
Only integer arithmetic is used, so a power can be evaluated in a proof.
-/

namespace ScorePortfolio

namespace Power

/-- The fractional bits of a fixed-point number. -/
def precision : Nat := 256

/-- The terms taken of a series. -/
def terms : Nat := 96

/-- The fixed-point one. -/
def one : Nat := 1 <<< precision

/-- The product of two fixed-point numbers, rounded down. -/
def mul (x y : Nat) : Nat := x * y / one

/-- The sum of `power / k + power * square / (k + 2) + ...`, over a number of terms. -/
def oddSeries (square : Nat) : Nat → Nat → Nat → Nat
  | 0, _, _ => 0
  | n + 1, power, k => power / k + oddSeries square n (mul power square) (k + 2)

/-- The natural logarithm of `num / den`, which is at least one and not much larger:
`2 artanh ((num - den) / (num + den))`. -/
def logRatio (num den : Nat) : Nat :=
  let t := (num - den) * one / (num + den)
  2 * oddSeries (mul t t) terms t 1

/-- The natural logarithm of two. -/
def logTwo : Nat := logRatio 2 1

/-- The sum of `term + term * x / k + term * x * x / (k * (k + 1)) + ...`. -/
def exponentialSeries (x : Nat) : Nat → Nat → Nat → Nat
  | 0, _, _ => 0
  | n + 1, term, k => term + exponentialSeries x n (mul term x / k) (k + 1)

/-- The exponential of a fixed-point number below one. -/
def exponential (x : Nat) : Nat := exponentialSeries x terms one 1

/-- The logarithm to base two of a positive number of units. -/
def logUnits (units : Nat) : Int :=
  let exponent := units.log2
  let fraction := logRatio units (1 <<< exponent) * one / logTwo
  ((exponent : Int) - 1074) * one + fraction

/-- Two to a fixed-point power, as the bits of the nearest magnitude. -/
def exponentialBits (z : Int) : Nat :=
  if (1100 : Int) * one ≤ z then Binary.infinityBits
  else if z ≤ (-1200 : Int) * one then 0
  else
    let whole := z / one
    let fraction := (z % one).toNat
    let significand := exponential (mul fraction logTwo)
    -- the power is `significand * 2 ^ (whole - precision)`, and a unit is `2 ^ (-1074)`
    let shift := whole + 1074 - precision
    if 0 ≤ shift then Binary.nearestBits (significand <<< shift.toNat) 1
    else Binary.nearestBits significand (1 <<< (-shift).toNat)

/-- A finite positive base to a finite exponent, as the bits of the nearest magnitude. -/
def bits (base exponent : Float) : Nat :=
  exponentialBits (logUnits (Binary.magnitude base) * Binary.units exponent / Binary.unitsInOne)

end Power

namespace Binary

/-- A positive base to an exponent.  There is no value where a finite base and a finite exponent
have a power beyond the largest double. -/
def power (base exponent : Float) : Option Float :=
  if exponent == 0.0 || base == 1.0 then some 1.0
  else if base.isNaN || exponent.isNaN then some (0.0 / 0.0)
  else if base.isFinite && exponent.isFinite then
    let bits := Power.bits base exponent
    if infinityBits ≤ bits then none else some (ofBits false bits)
  else if base.isFinite then
    some (if decide (1.0 < base) == isNegative exponent then 0.0 else 1.0 / 0.0)
  else some (if isNegative exponent then 0.0 else 1.0 / 0.0)

end Binary

end ScorePortfolio

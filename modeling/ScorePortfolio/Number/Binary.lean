/-!
# Doubles as whole numbers of a smallest unit

Every finite double is a whole number of *units* of `2 ^ (-1074)`, the smallest positive double.
Reading a double that way turns questions about its value into integer arithmetic; `nearestBits`
goes back, from a quotient of two naturals to the double nearest to it, a tie going to the even
significand.
-/

namespace ScorePortfolio

/-- The quotient rounded to a natural, a half going to the even neighbour. -/
def divHalfEven (num den : Nat) : Nat :=
  let q := num / den
  let r := num % den
  if 2 * r < den then q
  else if den < 2 * r then q + 1
  else q + q % 2

namespace Binary

/-- The units in one: `1 = 2 ^ 1074` units. -/
def unitsInOne : Nat := 1 <<< 1074

/-- The patterns of one exponent: the significand's own bits are the lower 52. -/
def significands : Nat := 0x10000000000000

/-- The sign bit, above all magnitudes. -/
def signBit : Nat := 0x8000000000000000

/-- The bits of positive infinity, the first pattern past the finite magnitudes. -/
def infinityBits : Nat := 2047 * significands

/-- Whether the sign bit is set, also for zeros, infinities and not-a-number. -/
def isNegative (x : Float) : Bool := signBit ≤ x.toBits.toNat

/-- The bits of the magnitude: all but the sign. -/
def magnitudeBits (x : Float) : Nat := x.toBits.toNat % signBit

/-- The units counted by the bits of a finite magnitude. -/
def unitsOfBits (bits : Nat) : Nat :=
  let exponent := bits / significands
  if exponent = 0 then bits else (significands + bits % significands) <<< (exponent - 1)

/-- The magnitude of a finite double in units. -/
def magnitude (x : Float) : Nat := unitsOfBits (magnitudeBits x)

/-- A finite double in units, with its sign. -/
def units (x : Float) : Int := if isNegative x then -(magnitude x : Int) else magnitude x

/-- The bits of the magnitude nearest to `num / den` units, a tie going to the even significand;
`infinityBits` or more where that lies beyond the largest double. -/
def nearestBits (num den : Nat) : Nat :=
  let shift := (num / den).log2 - 52
  shift * significands + divHalfEven num (den <<< shift)

/-- The double of a sign and the bits of a magnitude, infinite from `infinityBits` on. -/
def ofBits (negative : Bool) (bits : Nat) : Float :=
  let magnitude := min bits infinityBits
  Float.ofBits (UInt64.ofNat (if negative then signBit + magnitude else magnitude))

/-- The double nearest to `num / den`. -/
def nearest (negative : Bool) (num den : Nat) : Float :=
  ofBits negative (nearestBits (num * unitsInOne) den)

/-- The double nearest to a whole number of units; an empty sum is the positive zero. -/
def ofUnits (n : Int) : Float := ofBits (n < 0) (nearestBits n.natAbs 1)

/-- The double nearest to an integer. -/
def ofInt (n : Int) : Float := nearest (n < 0) n.natAbs 1

/-- Whether a whole number of units rounds beyond the largest double. -/
def overflows (n : Int) : Bool := infinityBits ≤ nearestBits n.natAbs 1

/-- The exact value of a finite double. -/
def toRat (x : Float) : Rat := mkRat (units x) unitsInOne

/-- The integer part of a finite double, its fraction dropped. -/
def truncate (x : Float) : Int := (units x).tdiv unitsInOne

/-- Whether a finite double is an integer. -/
def isIntegral (x : Float) : Bool := magnitude x % unitsInOne == 0

end Binary

end ScorePortfolio

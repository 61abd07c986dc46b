import ScorePortfolio.Number.Binary

/-!
# Decimal digits of a quotient

A positive quotient lies between two powers of ten, and has a run of leading digits.  The written
forms of doubles are all made from these two.
-/

namespace ScorePortfolio.Decimal

/-- Ten to an integer power times a quotient, as a quotient. -/
def scaleTen (num den : Nat) (k : Int) : Nat × Nat :=
  if 0 ≤ k then (num * Nat.pow 10 k.toNat, den) else (num, den * Nat.pow 10 (-k).toNat)

/-- Whether `10 ^ k` is at most `num / den`. -/
def tenPowerLE (k : Int) (num den : Nat) : Bool :=
  let (n, d) := scaleTen num den (-k)
  d ≤ n

/-- The greatest exponent of the next few for which the power of ten is at most the quotient. -/
def climb (num den : Nat) : Nat → Int → Int
  | 0, k => k
  | fuel + 1, k => if tenPowerLE (k + 1) num den then climb num den fuel (k + 1) else k

/-- The greatest `k` with `10 ^ k ≤ num / den`, for a positive quotient: the logarithms to base two
of its parts place it within three steps. -/
def exponent (num den : Nat) : Int :=
  climb num den 4 (((num.log2 : Int) - den.log2 - 1) * 30103 / 100000 - 1)

/-- A decimal significand with the exponent of its first digit: `digits` without leading zeros, so
that the value is `significand * 10 ^ (first - (number of digits - 1))`. -/
structure Leading where
  /-- The digits, read as one number. -/
  significand : Nat
  /-- The power of ten that the first digit counts. -/
  first : Int
deriving DecidableEq, Repr

/-- The given number of leading digits of a positive quotient, the rest rounded to nearest. -/
def leading (count : Nat) (num den : Nat) : Leading :=
  let k := exponent num den
  let (n, d) := scaleTen num den (count - 1 - k)
  let rounded := divHalfEven n d
  if rounded = Nat.pow 10 count then ⟨Nat.pow 10 (count - 1), k + 1⟩ else ⟨rounded, k⟩

/-- The decimal digits of a natural, with zeros in front up to a width. -/
def padded (width n : Nat) : String :=
  let digits := toString n
  "".pushn '0' (width - digits.length) ++ digits

/-- The text without the zeros at its end. -/
def dropZeros (cs : List Char) : List Char := (cs.reverse.dropWhile (· == '0')).reverse

/-- An exponent with its sign and at least two digits. -/
def exponentText (k : Int) : String :=
  (if k < 0 then "e-" else "e+") ++ padded 2 k.natAbs

/-- A natural of units of `10 ^ (-places)`, with a point before the places. -/
def pointed (places n : Nat) : String :=
  if places = 0 then toString n
  else toString (n / Nat.pow 10 places) ++ "." ++ padded places (n % Nat.pow 10 places)

end ScorePortfolio.Decimal

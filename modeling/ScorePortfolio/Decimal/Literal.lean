import ScorePortfolio.Number.Quantity
import ScorePortfolio.Text.Blank
import ScorePortfolio.Text.Digit

/-!
# Numbers read from texts

The two literals of a document, integers and doubles.  Blanks around a literal do not count, digits
of any script are digits, and a single underscore may stand between two digits.  A double is read to
the nearest one, beyond the range to an infinity.
-/

namespace ScorePortfolio.Decimal

open Text

/-- A character of a literal, with the digits of every script as ASCII digits.  Other characters
beyond ASCII stand in no literal. -/
def plain? (c : Char) : Option Char :=
  match digit? c with
  | some d => some (digitChar d)
  | none => if c.toNat < 128 then some c else none

/-- The characters without the underscores, each of which has to stand between two digits; the flag
says whether a digit came last. -/
def joinDigits? : Bool → List Char → Option (List Char)
  | _, [] => some []
  | afterDigit, '_' :: cs =>
    if afterDigit && (cs.head?.any Char.isDigit) then joinDigits? false cs else none
  | _, c :: cs => (joinDigits? c.isDigit cs).map (c :: ·)

/-- The characters of a literal, ready to be read by its grammar. -/
def numeral? (s : String) : Option (List Char) :=
  ((trim s.toList).mapM plain?).bind (joinDigits? false)

/-- A sign at the front, with the rest; a missing one is positive. -/
def splitSign : List Char → Bool × List Char
  | '-' :: cs => (true, cs)
  | '+' :: cs => (false, cs)
  | cs => (false, cs)

/-- The natural that ASCII digits spell. -/
def natOfDigits (cs : List Char) : Nat := cs.foldl (fun n c ↦ 10 * n + (c.toNat - 48)) 0

/-! ## Integers -/

/-- The most digits that an integer literal may have, zeros in front included. -/
def digitLimit : Nat := 4300

/-- The integer that a text spells. -/
def integer? (s : String) : Option Int := do
  let (negative, digits) := splitSign (← numeral? s)
  if digits.isEmpty || !digits.all Char.isDigit || digitLimit < digits.length then none
  else if negative then some (-(natOfDigits digits : Int))
  else some (natOfDigits digits)

/-! ## Doubles -/

/-- An exponent at the end of a literal: the letter, an optional sign, at least one digit.  A
missing one is zero. -/
def exponent? : List Char → Option Int
  | [] => some 0
  | c :: cs =>
    let (negative, digits) := splitSign cs
    if c.toLower ≠ 'e' || digits.isEmpty || !digits.all Char.isDigit then none
    else if negative then some (-(natOfDigits digits : Int))
    else some (natOfDigits digits)

/-- A fraction at the front, with the rest; a missing one has no digits. -/
def splitFraction : List Char → List Char × List Char
  | '.' :: cs => (cs.takeWhile Char.isDigit, cs.dropWhile Char.isDigit)
  | cs => ([], cs)

/-- An unsigned decimal as its digits, read as one natural, and the power of ten of the last one.
There is a digit before the point or after it. -/
def decimal? (cs : List Char) : Option (Nat × Int) := do
  let whole := cs.takeWhile Char.isDigit
  let (fraction, rest) := splitFraction (cs.dropWhile Char.isDigit)
  if whole.isEmpty && fraction.isEmpty then none
  else some (natOfDigits (whole ++ fraction), (← exponent? rest) - fraction.length)

/-- The double nearest to `significand * 10 ^ k`.  Far outside the range the power is not computed:
the leading digit tells that the value is infinite or zero. -/
def nearestDecimal (negative : Bool) (significand : Nat) (k : Int) : Float :=
  let first := k + significand.log2 * 30103 / 100000
  if significand = 0 ∨ first < -400 then Binary.ofBits negative 0
  else if 400 < first then Binary.ofBits negative Binary.infinityBits
  else if 0 ≤ k then Binary.nearest negative (significand * Nat.pow 10 k.toNat) 1
  else Binary.nearest negative significand (Nat.pow 10 (-k).toNat)

/-- The words for the values that are not finite, in small letters. -/
def specialWord? (negative : Bool) (word : List Char) : Option Float :=
  if word = "nan".toList then some (0.0 / 0.0)
  else if word = "inf".toList ∨ word = "infinity".toList then
    some (Binary.ofBits negative Binary.infinityBits)
  else none

/-- The double that a text spells. -/
def double? (s : String) : Option Float := do
  let (negative, cs) := splitSign (← numeral? s)
  match specialWord? negative (cs.map Char.toLower) with
  | some x => some x
  | none =>
    let (significand, k) ← decimal? cs
    some (nearestDecimal negative significand k)

end ScorePortfolio.Decimal

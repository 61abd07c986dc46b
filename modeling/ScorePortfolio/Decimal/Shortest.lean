import ScorePortfolio.Decimal.Format

/-!
# The shortest decimal that reads back

A double in a document is written with the fewest digits from which it can be read again; of two
candidates with that many digits, the nearer one.  On the grid of a given number of digits only the
two neighbours of the value can be such a candidate.
-/

namespace ScorePortfolio.Decimal

/-- Whether the decimal `significand * 10 ^ k` lies nearest to the magnitude of the given bits. -/
def readsBack (bits significand : Nat) (k : Int) : Bool :=
  let (n, d) := scaleTen significand 1 k
  Binary.nearestBits (n * Binary.unitsInOne) d == bits

/-- The neighbour of a magnitude with the given number of digits that reads back, if there is one:
the rounded one, or else the other one. -/
def candidate? (bits units count : Nat) : Option Leading :=
  let first := exponent units Binary.unitsInOne
  let last := first - (count - 1)
  let (n, d) := scaleTen units Binary.unitsInOne (-last)
  let rounded := divHalfEven n d
  let below := n / d
  let other := if rounded = below then below + 1 else below
  if readsBack bits rounded last then some ⟨rounded, first⟩
  else if readsBack bits other last then some ⟨other, first⟩
  else none

/-- The first candidate with the given number of digits or more, after a number of tries the last
one. -/
def firstFrom (candidate? : Nat → Option Leading) (last : Nat → Leading) :
    Nat → Nat → Nat × Leading
  | 0, count => (count, last count)
  | fuel + 1, count =>
    match candidate? count with
    | some lead => (count, lead)
    | none => firstFrom candidate? last fuel (count + 1)

/-- The number of digits and the digits of the shortest decimal of a positive magnitude; seventeen
digits always read back. -/
def shortest (bits : Nat) : Nat × Leading :=
  let units := Binary.unitsOfBits bits
  firstFrom (candidate? bits units) (leading · units Binary.unitsInOne) 16 1

/-- The digits of a decimal, moved to the next power of ten where they are one followed by one zero
too many. -/
def normalized (count : Nat) (lead : Leading) : Leading :=
  if lead.significand = Nat.pow 10 count then ⟨Nat.pow 10 (count - 1), lead.first + 1⟩ else lead

/-- A positional number always shows a point: the digits before it, at least one digit after it. -/
def positional (count : Nat) (lead : Leading) : String :=
  if (count : Int) - 1 ≤ lead.first then
    toString (lead.significand * Nat.pow 10 (lead.first - (count - 1)).toNat) ++ ".0"
  else pointed (count - 1 - lead.first).toNat lead.significand

/-- The shortest form of a magnitude: positional from `10 ^ (-4)` to below `10 ^ 16`, with an
exponent elsewhere. -/
def shortestUnits (bits : Nat) : String :=
  if bits = 0 then "0.0"
  else
    let (count, lead) := shortest bits
    let lead := normalized count lead
    if -4 ≤ lead.first ∧ lead.first < 16 then positional count lead
    else pointed (count - 1) lead.significand ++ exponentText lead.first

/-- The shortest form of a double. -/
def shortestText (x : Float) : String :=
  match Binary.nonFinite? x with
  | some kind => kind.text
  | none =>
    (if Binary.isNegative x then "-" else "") ++ shortestUnits (Binary.magnitudeBits x)

end ScorePortfolio.Decimal

import ScorePortfolio.Series.Shared

/-!
# Arithmetic of series

A number acts on each value; two series act on each other at the moments that both have.  A division
fails as a whole where a divisor is zero.
-/

namespace ScorePortfolio

/-- The four operations of arithmetic. -/
inductive Arithmetic where
  | add
  | sub
  | mul
  | div
deriving DecidableEq, Repr

namespace Series

variable {α : Type} [Quantity α]

/-- Each value plus a number. -/
def add (s : Series α) (k : α) : Series α := s.map (· + k)

/-- Each value minus a number. -/
def sub (s : Series α) (k : α) : Series α := s.map (· - k)

/-- Each value times a number. -/
def mul (s : Series α) (k : α) : Series α := s.map (· * k)

/-- Each value divided by a number. -/
def div (s : Series α) (k : α) : Except SeriesError (Series α) :=
  if Quantity.eq k Quantity.zero then .error .scalarZero else .ok (s.map (· / k))

/-- An operation with a number. -/
def withScalar (op : Arithmetic) (s : Series α) (k : α) : Except SeriesError (Series α) :=
  match op with
  | .add => .ok (s.add k)
  | .sub => .ok (s.sub k)
  | .mul => .ok (s.mul k)
  | .div => s.div k

/-- The sum of two series. -/
def addSeries (a b : Series α) : Series α := zipWith (· + ·) a b

/-- The difference of two series. -/
def subSeries (a b : Series α) : Series α := zipWith (· - ·) a b

/-- The product of two series. -/
def mulSeries (a b : Series α) : Series α := zipWith (· * ·) a b

/-- The points of the second series that are shared with the first, and zero. -/
def sharedZeros (a b : Series α) : List (Instant × α) :=
  (align a b).2.points.filter fun (_, y) ↦ Quantity.eq y Quantity.zero

/-- The quotient of two series. -/
def divSeries (a b : Series α) : Except SeriesError (Series α) :=
  match sharedZeros a b with
  | [] => .ok (zipWith (· / ·) a b)
  | (first, y) :: rest => .error (.alignedZeros ((first, y) :: rest).length first)

/-- An operation with another series. -/
def withSeries (op : Arithmetic) (a b : Series α) : Except SeriesError (Series α) :=
  match op with
  | .add => .ok (addSeries a b)
  | .sub => .ok (subSeries a b)
  | .mul => .ok (mulSeries a b)
  | .div => divSeries a b

end Series

end ScorePortfolio

import ScorePortfolio.Number.Binary

/-!
# The numbers of the pipeline

Prices, scores, weights and returns are quantities.  Every computation on them is written once over
the class `Quantity`, with two instances: `Float`, the doubles the program runs on, and `Rat`, the
exact arithmetic against which their results can be judged.  The instances differ in three places
only: a double may be infinite or not a number, a sum may leave its range, and an operation rounds.
-/

namespace ScorePortfolio

/-- The values of a quantity that stand for no number. -/
inductive NonFinite where
  | nan
  | posInfinity
  | negInfinity
deriving DecidableEq, Repr

namespace NonFinite

/-- The written form. -/
def text : NonFinite → String
  | nan => "nan"
  | posInfinity => "inf"
  | negInfinity => "-inf"

end NonFinite

/-- Why a total has no value. -/
inductive TotalFailure where
  /-- A running sum of finite terms leaves the range of the doubles. -/
  | overflow
  /-- Both infinities are among the terms. -/
  | opposedInfinities
deriving DecidableEq, Repr

/-- A number type that the pipeline can compute with. -/
class Quantity (α : Type) extends Add α, Sub α, Mul α, Div α where
  /-- The value of an integer. -/
  ofInt : Int → α
  /-- The value of a literal; only finite doubles are asked for. -/
  ofFloat : Float → α
  /-- Strictly below; false beside a value that is not a number. -/
  lt : α → α → Bool
  /-- Numerically equal; false beside a value that is not a number. -/
  eq : α → α → Bool
  /-- What the value stands for when it is no finite number. -/
  nonFinite? : α → Option NonFinite
  /-- The sum of a list, rounded once from the exact sum. -/
  total : List α → Except TotalFailure α

namespace Quantity

variable {α : Type} [Quantity α]

/-- The value zero. -/
def zero : α := ofInt 0

/-- The value one. -/
def one : α := ofInt 1

/-- Whether the value is a finite number. -/
def isFinite (x : α) : Bool := (nonFinite? x).isNone

/-- Whether the value is not a number, as a cell without an observation is. -/
def isMissing (x : α) : Bool := nonFinite? x == some .nan

/-- The value, if it is a number. -/
def present? (x : α) : Option α := if isMissing x then none else some x

/-- At most; false beside a value that is not a number. -/
def le (x y : α) : Bool := lt x y || eq x y

/-- The distance from zero. -/
def abs (x : α) : α := if lt x zero then zero - x else x

/-- The sum from left to right, starting at zero, as a loop adds. -/
def sum (xs : List α) : α := xs.foldl (· + ·) zero

/-- The product from left to right, starting at one. -/
def product (xs : List α) : α := xs.foldl (· * ·) one

@[simp] theorem sum_nil : sum ([] : List α) = zero := rfl

@[simp] theorem product_nil : product ([] : List α) = one := rfl

end Quantity

/-! ## Doubles -/

namespace Binary

/-- What a double stands for when it is no finite number. -/
def nonFinite? (x : Float) : Option NonFinite :=
  if x.isFinite then none
  else if x.isNaN then some .nan
  else if isNegative x then some .negInfinity
  else some .posInfinity

/-- The sum of infinite and not-a-number terms. -/
def sumNonFinite (terms : List NonFinite) : Except TotalFailure Float :=
  if .posInfinity ∈ terms ∧ .negInfinity ∈ terms then .error .opposedInfinities
  else if .nan ∈ terms then .ok (0.0 / 0.0)
  else if .negInfinity ∈ terms then .ok (-1.0 / 0.0)
  else .ok (1.0 / 0.0)

/-- The total of the terms left, given the units of the finite terms read since the last term that
was not finite, and those terms.  The exact sum is rounded once, at the end. -/
def totalFrom (sum : Int) (special : List NonFinite) : List Float → Except TotalFailure Float
  | [] => if special.isEmpty then .ok (ofUnits sum) else sumNonFinite special
  | x :: xs =>
    match nonFinite? x with
    | some kind => totalFrom 0 (kind :: special) xs
    | none =>
      let next := sum + units x
      if overflows next then .error .overflow else totalFrom next special xs

/-- The exactly rounded total of a list of doubles. -/
def total (xs : List Float) : Except TotalFailure Float := totalFrom 0 [] xs

end Binary

instance : Quantity Float where
  ofInt := Binary.ofInt
  ofFloat x := x
  lt x y := x < y
  eq x y := x == y
  nonFinite? := Binary.nonFinite?
  total := Binary.total

/-! ## Exact numbers -/

instance : Quantity Rat where
  ofInt n := n
  ofFloat := Binary.toRat
  lt x y := x < y
  eq x y := x == y
  nonFinite? _ := none
  total xs := .ok (xs.foldl (· + ·) 0)

namespace Quantity

@[simp] theorem zero_rat : (zero : Rat) = 0 := rfl

@[simp] theorem one_rat : (one : Rat) = 1 := rfl

@[simp] theorem ofInt_rat (n : Int) : (ofInt n : Rat) = n := rfl

@[simp] theorem nonFinite?_rat (x : Rat) : nonFinite? x = none := rfl

@[simp] theorem isFinite_rat (x : Rat) : isFinite x = true := rfl

@[simp] theorem isMissing_rat (x : Rat) : isMissing x = false := rfl

@[simp] theorem present?_rat (x : Rat) : present? x = some x := rfl

@[simp] theorem lt_rat (x y : Rat) : (lt x y = true) = (x < y) := by
  simp [lt]

@[simp] theorem eq_rat (x y : Rat) : (eq x y = true) = (x = y) := by
  simp [eq]

end Quantity

end ScorePortfolio

import ScorePortfolio.Number.Quantity

/-!
# Sums of arrays

A sum of doubles depends on the order of its additions.  Fewer than eight items are added from left
to right.  From eight items on they are dealt out to eight running sums, which are added in pairs,
and the fewer than eight items left over are added to that one by one.  More than 128 items are
parted near the middle, at a multiple of eight, and both parts are summed in this way.
-/

namespace ScorePortfolio

/-- Eight running sums. -/
structure Lanes (α : Type) where
  (a b c d e f g h : α)

namespace Lanes

variable {α : Type} [Quantity α]

/-- The sums after one more item each. -/
def add (sums items : Lanes α) : Lanes α where
  a := sums.a + items.a
  b := sums.b + items.b
  c := sums.c + items.c
  d := sums.d + items.d
  e := sums.e + items.e
  f := sums.f + items.f
  g := sums.g + items.g
  h := sums.h + items.h

/-- The sums added in pairs. -/
def total (sums : Lanes α) : α :=
  ((sums.a + sums.b) + (sums.c + sums.d)) + ((sums.e + sums.f) + (sums.g + sums.h))

/-- The sum after the items of a list, which are dealt out eight at a time. -/
def addAll (sums : Lanes α) : List α → α
  | a :: b :: c :: d :: e :: f :: g :: h :: items =>
    (sums.add ⟨a, b, c, d, e, f, g, h⟩).addAll items
  | rest => rest.foldl (· + ·) sums.total

end Lanes

namespace Quantity

variable {α : Type} [Quantity α]

/-- The sum of a block of items. -/
def blockSum : List α → α
  | a :: b :: c :: d :: e :: f :: g :: h :: items => Lanes.addAll ⟨a, b, c, d, e, f, g, h⟩ items
  | few => sum few

/-- The length of the longest block. -/
def blockLength : Nat := 128

/-- The place where a longer list is parted. -/
def halfway (length : Nat) : Nat := length / 2 / 8 * 8

/-- The sum of the blocks that a list is parted into. -/
def pairwiseSum (xs : List α) : α :=
  if xs.length ≤ blockLength then blockSum xs
  else pairwiseSum (xs.take (halfway xs.length)) + pairwiseSum (xs.drop (halfway xs.length))
termination_by xs.length
decreasing_by
  all_goals
    simp only [List.length_take, List.length_drop, halfway, blockLength] at *
    omega

/-- The sum of an array, which is added to zero. -/
def arraySum (xs : List α) : α := zero + pairwiseSum xs

end Quantity

end ScorePortfolio

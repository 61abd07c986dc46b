import ScorePortfolio.Number.Quantity

/-!
# Compounding

What returns add up to: the growth of one unit after each of them, and their total return.  A return
that is not a number leaves the growth as it was and has no growth of its own.
-/

namespace ScorePortfolio

variable {α : Type} [Quantity α]

/-- The total return of returns one after the other; one that is not a number makes it so too. -/
def totalReturn (returns : List α) : α :=
  if returns.isEmpty then Quantity.zero
  else Quantity.product (returns.map (Quantity.one + ·)) - Quantity.one

/-- The growth after each of some returns, starting from a given one. -/
def growthFrom (growth : α) : List α → List (Option α)
  | [] => []
  | r :: returns =>
    let factor := Quantity.one + r
    if Quantity.isMissing factor then none :: growthFrom growth returns
    else
      let next := growth * factor
      Quantity.present? next :: growthFrom next returns

/-- The growth of one unit after each of some returns. -/
def equityCurve (returns : List α) : List (Option α) := growthFrom Quantity.one returns

end ScorePortfolio

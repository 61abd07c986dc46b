/-!
# Assets

What can be held in a portfolio, identified by its symbol.
-/

namespace ScorePortfolio

/-- A tradable asset. -/
structure Asset where
  /-- The symbol. -/
  symbol : String
deriving DecidableEq, Repr

namespace Asset

/-- The order of symbols, by their characters. -/
def le (a b : Asset) : Bool := a.symbol ≤ b.symbol

/-- Assets in the order of their symbols. -/
def sort (assets : List Asset) : List Asset := assets.mergeSort le

/-- Assets with values, in the order of the symbols. -/
def sortEntries {β : Type} (entries : List (Asset × β)) : List (Asset × β) :=
  entries.mergeSort fun x y ↦ le x.1 y.1

end Asset

end ScorePortfolio

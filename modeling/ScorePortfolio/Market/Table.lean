import ScorePortfolio.Series.Transform
import ScorePortfolio.Series.Cut
import ScorePortfolio.Document.Scalar
import ScorePortfolio.Entries

/-!
# Tables of values by date

A table has a row for each date and a labelled column for each asset; a cell that is not a number is
empty.  Dates may come in any order, may repeat and may be missing.  The items of a column are its
cells in the order of their dates.
-/

namespace ScorePortfolio

/-- Values by date and label. -/
structure Table (α : Type) where
  /-- The dates of the rows. -/
  dates : List (Option Instant)
  /-- The columns, each a label with the cells of all rows. -/
  columns : List (Scalar × List α)

namespace Table

variable {α : Type}

/-- The table of dates and columns.  A repeated label keeps its first place and its last cells;
every column needs a cell for each date. -/
def ofColumns? (dates : List (Option Instant)) (columns : List (Scalar × List α)) :
    Option (Table α) :=
  let columns := Entries.ofList Scalar.same columns
  if columns.all fun (_, cells) ↦ cells.length == dates.length then some ⟨dates, columns⟩ else none

/-- The cells of a column. -/
def cells? (t : Table α) (label : Scalar) : Option (List α) :=
  Entries.find? Scalar.same label t.columns

/-- The cells of a column with their dates, in the order of the dates. -/
def items? (t : Table α) (label : Scalar) : Option (List (Option Instant × α)) :=
  (t.cells? label).map fun cells ↦ Series.sortItems (t.dates.zip cells)

/-- The change of a column from each row to the next in the order of the dates, relative to the
earlier row. -/
def changeItems? [Quantity α] (t : Table α) (label : Scalar) :
    Option (List (Option Instant × α)) :=
  (t.items? label).map fun items ↦
    (steps items).map fun ((_, x), (date, y)) ↦ (date, Quantity.change x y)

end Table

/-- The series of the cells that hold a number. -/
def Series.ofCells {α : Type} [Quantity α] (items : List (Option Instant × α)) :
    Except (OutOfRange ⊕ SeriesError) (Series α) := do
  let present := items.filter fun (_, x) ↦ !Quantity.isMissing x
  let fitted ← present.mapM fun (date, x) ↦
    ((Instant.fitOf date).map fun date ↦ (date, x)).mapError .inl
  (Series.ofItems fitted).mapError .inr

end ScorePortfolio

import ScorePortfolio.Strategy.Operation
import ScorePortfolio.Document.Basic

/-!
# Strategies

A strategy is a list of named calculations, one of which gives the score of an asset.  The operands
of a calculation have roles, and name other calculations or hold literals.  Names are kept as the
document has them, so a number and its text are two names.
-/

namespace ScorePortfolio

/-- An input of a calculation. -/
structure Operand where
  /-- What the operand is to its calculation. -/
  role : Doc
  /-- The declared type. -/
  kind : OperandKind
  /-- The text of the literal or the name of another calculation. -/
  value : Option String

/-- A named step of a strategy. -/
structure Calculation where
  /-- The name. -/
  name : Doc
  /-- What it does. -/
  operation : Operation
  /-- The inputs, in the order of the document. -/
  operands : List Operand

/-- A list of calculations with the name of the score. -/
structure Strategy where
  /-- The name. -/
  name : Doc
  /-- The name of the calculation that gives the score. -/
  score : Doc
  /-- The calculations, in the order of the document. -/
  calculations : List Calculation

namespace Operand

/-- Whether the operand names a calculation. -/
def isReference (o : Operand) : Bool := o.kind = .reference

/-- The document of an operand; an absent value is left out. -/
def toDoc (o : Operand) : Doc :=
  Doc.record ([("name", o.role), ("type", .text o.kind.word)] ++
    (o.value.map fun v ↦ ("value", Doc.text v)).toList)

/-- Whether two operands are equal as values. -/
def same (a b : Operand) : Bool := a.role.same b.role && a.kind = b.kind && a.value = b.value

end Operand

/-- Whether two lists agree item by item. -/
def sameLists {α : Type} (same : α → α → Bool) (xs ys : List α) : Bool :=
  xs.length == ys.length && (xs.zip ys).all fun (x, y) ↦ same x y

namespace Calculation

/-- The first operand of a role. -/
def operand? (c : Calculation) (role : Doc) : Option Operand :=
  c.operands.find? (·.role.same role)

/-- The names that the operands refer to, in order. -/
def references (c : Calculation) : List String :=
  (c.operands.filter (·.isReference)).filterMap (·.value)

/-- The document of a calculation. -/
def toDoc (c : Calculation) : Doc :=
  Doc.record [("name", c.name), ("operation", .text c.operation.word),
    ("operands", .list (c.operands.map (·.toDoc)))]

/-- Whether two calculations are equal as values. -/
def same (a b : Calculation) : Bool :=
  a.name.same b.name && a.operation = b.operation && sameLists Operand.same a.operands b.operands

end Calculation

namespace Strategy

/-- The first calculation of a name. -/
def calculation? (s : Strategy) (name : Doc) : Option Calculation :=
  s.calculations.find? (·.name.same name)

/-- The document of a strategy. -/
def toDoc (s : Strategy) : Doc :=
  Doc.record [("name", s.name), ("score", Doc.record [("calc", s.score)]),
    ("calcs", .list (s.calculations.map (·.toDoc)))]

/-- Whether two strategies are equal as values. -/
def same (a b : Strategy) : Bool :=
  a.name.same b.name && a.score.same b.score &&
    sameLists Calculation.same a.calculations b.calculations

end Strategy

end ScorePortfolio

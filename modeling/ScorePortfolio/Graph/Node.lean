import ScorePortfolio.Strategy.Operation
import ScorePortfolio.Document.Basic

/-!
# Nodes

The steps of a compiled strategy.  A node reads its operands by their positions among the nodes; a
negative position counts from the end.
-/

namespace ScorePortfolio

/-- A step of a compiled strategy. -/
inductive Node where
  /-- Reads a field of the market, the default one if none is named. -/
  | query (name : Scalar) (field : Option String)
  /-- Combines the series at a position with a number. -/
  | scalar (name : Scalar) (operation : Operation) (source : Int) (number : Float)
  /-- Combines the series at two positions. -/
  | series (name : Scalar) (operation : Operation) (left right : Int)
  /-- Averages the series at a position over a moving window. -/
  | sma (name : Scalar) (source : Int) (window : Int)
  /-- Something that is no step: a bare object, which has a type but no name. -/
  | foreign
deriving DecidableEq

namespace Node

/-- The name of a node; something that is no step has none. -/
def name? : Node → Option Scalar
  | query name _ | scalar name .. | series name .. | sma name .. => some name
  | foreign => none

/-- The name of the type of a node. -/
def typeName : Node → String
  | query .. => "QueryNode"
  | scalar .. => "ScalarNode"
  | series .. => "SeriesNode"
  | sma .. => "SmaNode"
  | foreign => "object"

/-- The positions that a node reads, in the order in which it reads them. -/
def reads : Node → List Int
  | query .. | foreign => []
  | scalar _ _ source _ | sma _ source _ => [source]
  | series _ _ left right => [left, right]

end Node

/-- A position of a list, a negative one counted from the end. -/
def position? (length : Nat) (i : Int) : Option Nat :=
  if 0 ≤ i ∧ i < length then some i.toNat
  else if i < 0 ∧ -i ≤ length then some (length + i).toNat
  else none

/-- A compiled strategy. -/
structure Graph where
  /-- The name of the strategy. -/
  strategy : Doc
  /-- The steps, each after those that it reads. -/
  nodes : List Node
  /-- The position of the step that gives the score. -/
  scorePosition : Int
  /-- The dependencies between calculations, each from operand to reader. -/
  edges : List (Scalar × Scalar)

namespace Graph

/-- The number of steps. -/
def length (g : Graph) : Nat := g.nodes.length

/-- The names of the steps, in order. -/
def executionOrder (g : Graph) : List Scalar := g.nodes.filterMap Node.name?

/-- Each name with its position, in order. -/
def positions (g : Graph) : List (Scalar × Nat) := g.executionOrder.zipIdx

/-- The name of the step that gives the score. -/
def scoreName? (g : Graph) : Option Scalar :=
  ((position? g.length g.scorePosition).bind (g.nodes[·]?)).bind Node.name?

/-- The calculations that the one of a name reads. -/
def dependencies (g : Graph) (name : Scalar) : List Scalar :=
  (g.edges.filter (·.2.same name)).map (·.1)

/-- The calculations that read the one of a name. -/
def dependents (g : Graph) (name : Scalar) : List Scalar :=
  (g.edges.filter (·.1.same name)).map (·.2)

/-- Whether a step has a name. -/
def hasName (g : Graph) (name : Scalar) : Bool := g.executionOrder.any (·.same name)

/-- The message for a name that no step has. -/
def unknownNameText (name : Scalar) : String := s!"Calculation '{name.asText}' not in graph"

end Graph

end ScorePortfolio

import ScorePortfolio.Strategy.Basic

/-!
# What can be wrong with a strategy

The causes for which a document is no strategy, or a strategy no graph, with the message of each.
-/

namespace ScorePortfolio

/-- A defect of a strategy as a whole. -/
inductive StrategyDefect where
  /-- The strategy has no name. -/
  | noName
  /-- There is no name of a score. -/
  | noScore
  /-- The calculations are no list. -/
  | noCalculationList
  /-- A calculation has no name. -/
  | unnamedCalculation
  /-- A calculation has an operation that is none of the known words. -/
  | unknownOperation (calculation operation : Doc)
  /-- There are no calculations. -/
  | noCalculations
  /-- Names that several calculations have. -/
  | duplicateNames (names : List Scalar)
  /-- No calculation has the name of the score. -/
  | unknownScore (score : Doc)
  /-- A calculation refers to a name that no calculation has. -/
  | unknownReference (calculation : Doc) (value : Option String) (role : Doc)
  /-- Calculations that wait for each other, with those that wait for them. -/
  | cycle (names : List Scalar)
  /-- The calculations fall apart, some of them out of reach of the score. -/
  | disconnected (count : Nat) (orphans : List Scalar)

/-- A defect of an operand. -/
inductive OperandDefect where
  /-- The operand has no role. -/
  | unnamed
  /-- The declared type is none of the known words. -/
  | unknownKind (kind : Doc)
  /-- The operation needs the operand, and there is none. -/
  | missing (operation : Operation)
  /-- The declared type is not what the operation takes. -/
  | wrongKind (expected : List OperandKind) (got : OperandKind)
  /-- The text spells no number. -/
  | noNumber (value : Option String)
  /-- The text spells no integer. -/
  | noInteger (value : Option String)
  /-- The number is infinite or not a number. -/
  | notFinite (value : String)
  /-- The window holds no point. -/
  | tooSmall (value : Int)

/-- Why a document is no strategy, or a strategy no graph. -/
inductive StrategyError where
  /-- A defect of the strategy of a name. -/
  | invalid (strategy : Doc) (defect : StrategyDefect)
  /-- A defect of the operand that has a role in a calculation. -/
  | operand (calculation role : Doc) (defect : OperandDefect)
  /-- Something else stands where a mapping has to be. -/
  | notMapping
  /-- Something without items stands where a list has to be. -/
  | notIterable
  /-- A list or a mapping stands where a name has to be. -/
  | compositeName
  /-- Texts and numbers among the names have no common order. -/
  | unorderedNames

/-- The name of a strategy that has none yet. -/
def Strategy.unknownName : Doc := .text "<unknown>"

/-- The role of an operand that has none. -/
def Operand.unnamedRole : Doc := .text "<unnamed>"

/-- The text of an optional text, with quotes. -/
def shownValue (value : Option String) : String :=
  (value.elim Scalar.null Scalar.text).shown

/-- The names in brackets, with quotes around texts. -/
def shownNames (names : List Scalar) : String := Text.bracketed (names.map Scalar.shown)

namespace StrategyDefect

/-- The wording of a defect. -/
def text : StrategyDefect → String
  | noName => "strategy name is required"
  | noScore => "score.calc is required"
  | noCalculationList => "calcs must be a list"
  | unnamedCalculation => "calculation without a name"
  | unknownOperation calculation operation =>
    s!"calculation '{calculation.asText}' has unknown operation {operation.shown}"
  | noCalculations => "zero connected components found"
  | duplicateNames names => "duplicate calculation names: " ++ shownNames names
  | unknownScore score => s!"score calculation '{score.asText}' not found"
  | unknownReference calculation value role =>
    s!"calculation '{calculation.asText}' references unknown calculation " ++
      s!"{shownValue value} via operand '{role.asText}'"
  | cycle names => "cyclic dependency among " ++ shownNames names
  | disconnected count orphans =>
    s!"more than 1 connected component found ({count}); not connected to score: " ++
      shownNames orphans

end StrategyDefect

namespace OperandDefect

/-- The wording of a defect. -/
def text : OperandDefect → String
  | unnamed => "operand name is required"
  | unknownKind kind => "unknown operand type " ++ kind.shown
  | missing operation => s!"required for {operation.word} but missing"
  | wrongKind expected got =>
    "expected " ++ " or ".intercalate (expected.map OperandKind.word) ++ ", got " ++ got.word
  | noNumber value => s!"cannot parse {shownValue value} as a number"
  | noInteger value => s!"cannot parse {shownValue value} as an integer"
  | notFinite value => s!"{Text.quoted value} is not finite"
  | tooSmall value => s!"must be >= 1, got {value}"

end OperandDefect

namespace StrategyError

/-- The message of an error, where it has one of its own. -/
def message? : StrategyError → Option String
  | invalid strategy defect => some s!"Invalid strategy '{strategy.asText}': {defect.text}"
  | operand calculation role defect =>
    some s!"Calculation '{calculation.asText}', operand '{role.asText}': {defect.text}"
  | _ => none

end StrategyError

end ScorePortfolio

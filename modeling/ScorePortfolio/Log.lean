/-!
# Log records

What a computation reports beside its result.
-/

namespace ScorePortfolio

/-- The weight of a record. -/
inductive Level where
  | debug
  | info
  | warning
deriving DecidableEq, Repr

/-- The word of a level. -/
def Level.word : Level → String
  | debug => "DEBUG"
  | info => "INFO"
  | warning => "WARNING"

/-- A line of a log. -/
structure Record where
  /-- The weight. -/
  level : Level
  /-- The text. -/
  message : String
deriving DecidableEq, Repr

end ScorePortfolio

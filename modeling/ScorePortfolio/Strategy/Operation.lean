import ScorePortfolio.Series.Arithmetic
import ScorePortfolio.Text.Capital

/-!
# Operations and operand types

The words of a strategy: what a calculation does, and what kind of literal an operand is.
-/

namespace ScorePortfolio

/-- What a calculation does. -/
inductive Operation where
  /-- Reads a field of the market. -/
  | query
  /-- Combines a series with a number. -/
  | scalar (op : Arithmetic)
  /-- Combines two series. -/
  | series (op : Arithmetic)
  /-- Averages a series over a moving window. -/
  | sma
deriving DecidableEq, Repr

/-- The word of an arithmetic operation. -/
def Arithmetic.word : Arithmetic → String
  | .add => "ADD"
  | .sub => "SUB"
  | .mul => "MUL"
  | .div => "DIV"

namespace Operation

/-- All operations. -/
def all : List Operation :=
  [query, scalar .add, scalar .sub, scalar .mul, scalar .div,
   series .add, series .sub, series .mul, series .div, sma]

/-- The word of an operation. -/
def word : Operation → String
  | query => "QUERY"
  | scalar op => op.word
  | series op => "TS_" ++ op.word
  | sma => "SMA"

/-- The operation of a word. -/
def ofWord? (word : String) : Option Operation := all.find? (·.word == word)

/-- The operation that a text names, in small or capital letters. -/
def parse? (s : String) : Option Operation := ofWord? (Text.capitals s)

theorem ofWord?_word (op : Operation) : ofWord? op.word = some op := by
  cases op with
  | query => decide
  | scalar op => cases op <;> decide
  | series op => cases op <;> decide
  | sma => decide

end Operation

/-- The declared type of an operand. -/
inductive OperandKind where
  | text
  | integer
  | decimal
  | reference
deriving DecidableEq, Repr

namespace OperandKind

/-- All operand types. -/
def all : List OperandKind := [text, integer, decimal, reference]

/-- The word of an operand type. -/
def word : OperandKind → String
  | text => "Text"
  | integer => "Integer"
  | decimal => "Decimal"
  | reference => "Reference"

/-- The operand type of a word. -/
def ofWord? (word : String) : Option OperandKind := all.find? (·.word == word)

theorem ofWord?_word (kind : OperandKind) : ofWord? kind.word = some kind := by
  cases kind <;> decide

end OperandKind

end ScorePortfolio

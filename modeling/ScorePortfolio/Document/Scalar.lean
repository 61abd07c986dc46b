import ScorePortfolio.Decimal.Shortest
import ScorePortfolio.Text.Quoted

/-!
# Scalars of a document

The leaves of a document, which are also the keys of its mappings.  A truth value counts as the
number zero or one, and an integer equals the double of its value; `Scalar.key` picks one
representative of each class of equal scalars.
-/

namespace ScorePortfolio

/-- A value without parts. -/
inductive Scalar where
  | null
  | bool (value : Bool)
  | int (value : Int)
  | float (value : Float)
  | text (value : String)
deriving DecidableEq

namespace Scalar

/-- The representative of the scalars equal to this one: numbers without a fraction are integers. -/
def key : Scalar → Scalar
  | bool b => int (if b then 1 else 0)
  | float x => if x.isFinite && Binary.isIntegral x then int (Binary.truncate x) else float x
  | s => s

/-- Whether two scalars are equal as values. -/
def same (a b : Scalar) : Bool := a.key = b.key

/-- Whether the scalar counts as a yes: all do but null, false, zero and the empty text. -/
def isTruthy : Scalar → Bool
  | null => false
  | bool b => b
  | int n => n ≠ 0
  | float x => x != 0.0
  | text s => s ≠ ""

/-- The bare text.  An integer is written out however long it is, on the assumption that it has at
most 4300 digits: a longer one, which only binary, octal and hexadecimal digits spell, has no
text. -/
def asText : Scalar → String
  | null => "None"
  | bool true => "True"
  | bool false => "False"
  | int n => toString n
  | float x => Decimal.shortestText x
  | text s => s

/-- The text with quotes around texts. -/
def shown : Scalar → String
  | text s => Text.quoted s
  | s => s.asText

@[simp] theorem key_text (s : String) : (text s).key = text s := rfl

@[simp] theorem key_int (n : Int) : (int n).key = int n := rfl

@[simp] theorem same_self (a : Scalar) : a.same a = true := by simp [same]

@[simp] theorem same_text (s t : String) : (text s).same (text t) = decide (s = t) := by
  simp [same]

end Scalar

end ScorePortfolio

import ScorePortfolio.Document.Basic
import ScorePortfolio.Decimal.Literal

/-!
# Arrays of numbers

Nested lists of equal lengths hold an array of numbers, with one dimension for each level of
nesting; a lone number has none.
-/

namespace ScorePortfolio

/-- Why a document holds no array of numbers. -/
inductive ArrayError where
  /-- Lists of one level differ in length, or a list stands beside a number. -/
  | ragged
  /-- A text spells no number. -/
  | unreadable (text : String)
  /-- An integer is too large for a double. -/
  | tooLarge (value : Int)
  /-- A mapping stands in the place of a number. -/
  | notNumber
deriving DecidableEq

/-- The numbers of an array, in order, with the lengths of its dimensions. -/
structure NumberArray where
  /-- The length of each dimension, outermost first. -/
  shape : List Nat
  /-- The numbers, the last dimension varying fastest. -/
  cells : List Float

namespace NumberArray

/-- The number of a cell: a missing one is not a number, truth values are zero and one, and a text
is read as a double. -/
def cell : Scalar → Except ArrayError Float
  | .null => .ok (0.0 / 0.0)
  | .bool b => .ok (if b then 1.0 else 0.0)
  | .int n => if (Binary.ofInt n).isFinite then .ok (Binary.ofInt n) else .error (.tooLarge n)
  | .float x => .ok x
  | .text s =>
    match Decimal.double? s with
    | some x => .ok x
    | none => .error (.unreadable s)

/-- The number of a document by itself, where a missing one is none. -/
def number : Doc → Except ArrayError Float
  | .scalar .null | .list _ | .map _ => .error .notNumber
  | .scalar s => cell s

/-- The one value that all items of a list have; an empty list has none, and unequal items fail. -/
def agreed? : List (List Nat) → Option (List Nat)
  | [] => some []
  | s :: shapes => if shapes.all (· == s) then some s else none

mutual

/-- The lengths of the dimensions, if all lists of one level agree. -/
def shape? : Doc → Option (List Nat)
  | .list items => (shapes? items).bind agreed? |>.map (items.length :: ·)
  | _ => some []
termination_by structural doc => doc

/-- The dimensions of each item. -/
def shapes? : List Doc → Option (List (List Nat))
  | [] => some []
  | x :: xs => (shape? x).bind fun s ↦ (shapes? xs).map (s :: ·)
termination_by structural items => items

end

mutual

/-- The numbers of a document, the first fault deciding. -/
def numbers : Doc → Except ArrayError (List Float)
  | .scalar s => (cell s).map ([·])
  | .list items => itemNumbers items
  | .map _ => .error .notNumber
termination_by structural doc => doc

/-- The numbers of items. -/
def itemNumbers : List Doc → Except ArrayError (List Float)
  | [] => .ok []
  | x :: xs => (numbers x).bind fun first ↦ (itemNumbers xs).map (first ++ ·)
termination_by structural items => items

end

/-- The array that a document holds. -/
def ofDoc (doc : Doc) : Except ArrayError NumberArray :=
  match shape? doc with
  | none => .error .ragged
  | some shape => (numbers doc).map (⟨shape, ·⟩)

/-- The written form of a shape: the lengths in parentheses, a single one with a comma after it. -/
def shapeText : List Nat → String
  | [n] => "(" ++ toString n ++ ",)"
  | shape => "(" ++ ", ".intercalate (shape.map toString) ++ ")"

end NumberArray

end ScorePortfolio

import ScorePortfolio.Document.Scalar
import ScorePortfolio.Document.Yaml.Text
import ScorePortfolio.Decimal.Literal

/-!
# The meaning of plain scalars

A plain scalar is a truth value, null or a number if it is written like one, and a text otherwise.
Numbers may hold underscores; integers have four bases and a form in base sixty, which doubles have
too.
-/

namespace ScorePortfolio.Yaml

/-- The words for yes. -/
def yesWords : List String :=
  ["yes", "Yes", "YES", "true", "True", "TRUE", "on", "On", "ON"]

/-- The words for no. -/
def noWords : List String :=
  ["no", "No", "NO", "false", "False", "FALSE", "off", "Off", "OFF"]

/-- The words for nothing. -/
def nullWords : List String := ["~", "null", "Null", "NULL", ""]

/-- The values of digits of a base, underscores left out; none where there is another character, or
nothing at all. -/
def digitsOf? (base : Nat) (cs : List Char) : Option (List Nat) :=
  if cs.isEmpty then none
  else
    (cs.filter (· ≠ '_')).mapM fun c ↦ (hexValue? c).filter (· < base)

/-- The digits of a part of a number in base sixty after the first: one, or two that are below
sixty. -/
def sixtieth? (cs : List Char) : Option Nat :=
  match cs with
  | [c] => (digitsOf? 10 [c]).map (ofDigits 10)
  | [c, d] => if c = '_' ∨ d = '_' ∨ '5' < c then none else (digitsOf? 10 [c, d]).map (ofDigits 10)
  | _ => none

/-- The parts between colons. -/
def splitColons (cs : List Char) : List (List Char) :=
  match cs with
  | [] => [[]]
  | c :: cs =>
    if c = ':' then [] :: splitColons cs
    else
      match splitColons cs with
      | part :: parts => (c :: part) :: parts
      | [] => [[c]]

/-- The parts of a number in base sixty, of which there are two at least; the first may have any
number of digits. -/
def sixtieths? (cs : List Char) : Option (List Nat) :=
  match splitColons cs with
  | first :: second :: more => do
    let digits ← if first.head?.any Char.isDigit then digitsOf? 10 first else none
    return ofDigits 10 digits :: (← (second :: more).mapM sixtieth?)
  | _ => none

/-! ## Integers -/

/-- The value of an unsigned integer. -/
def natural? (cs : List Char) : Option Nat :=
  match cs with
  | ['0'] => some 0
  | '0' :: 'b' :: digits => (digitsOf? 2 digits).map (ofDigits 2)
  | '0' :: 'x' :: digits => (digitsOf? 16 digits).map (ofDigits 16)
  | '0' :: digits => (digitsOf? 8 digits).map (ofDigits 8)
  | '_' :: _ => none
  | digits =>
    match digitsOf? 10 digits with
    | some values => some (ofDigits 10 values)
    | none => (sixtieths? digits).map (ofDigits 60)

/-- The value of an integer. -/
def integer? (cs : List Char) : Option Int :=
  let (negative, digits) := Decimal.splitSign cs
  (natural? digits).map fun n ↦ if negative then -(n : Int) else n

/-! ## Doubles -/

/-- An exponent with its sign, or nothing. -/
def isExponent (cs : List Char) : Bool :=
  match cs with
  | [] => true
  | e :: sign :: digits =>
    (e == 'e' || e == 'E') && (sign == '-' || sign == '+') && !digits.isEmpty &&
      digits.all Char.isDigit
  | _ => false

/-- A digit or an underscore. -/
def isDigitOr (c : Char) : Bool := c.isDigit || c == '_'

/-- The value of an unsigned decimal with a point; a digit stands before the point, or else right
after it. -/
def decimal? (negative leadingPoint : Bool) (cs : List Char) : Option Float :=
  let whole := cs.takeWhile isDigitOr
  match cs.dropWhile isDigitOr with
  | '.' :: rest =>
    let fraction := rest.takeWhile isDigitOr
    let exponent := rest.dropWhile isDigitOr
    let starts (digits : List Char) := digits.head?.any Char.isDigit
    if isExponent exponent &&
        (starts whole || (leadingPoint && whole.isEmpty && starts fraction)) then
      (Decimal.decimal? (cs.filter (· ≠ '_'))).map fun (n, k) ↦ Decimal.nearestDecimal negative n k
    else none
  | _ => none

/-- The value of an unsigned number in base sixty whose last part has a point. -/
def sixtyDouble? (negative : Bool) (cs : List Char) : Option Float := do
  let whole := cs.takeWhile (· ≠ '.')
  match cs.dropWhile (· ≠ '.') with
  | '.' :: fraction =>
    if fraction.all isDigitOr then
      let parts := (← sixtieths? whole).reverse
      let digits := fraction.filter (· ≠ '_')
      match parts with
      | [] => none
      | last :: more =>
        let last := Decimal.nearestDecimal false (last * Nat.pow 10 digits.length +
          Decimal.natOfDigits digits) (-digits.length)
        let sum := more.zipIdx.foldl
          (fun sum (part, i) ↦ sum + Binary.ofInt part * Binary.ofInt (Nat.pow 60 (i + 1))) last
        some (if negative then -sum else sum)
    else none
  | _ => none

/-- The value of a double. -/
def double? (cs : List Char) : Option Float :=
  let (negative, number) := Decimal.splitSign cs
  let unsigned := number.length == cs.length
  let word := String.ofList number
  if [".inf", ".Inf", ".INF"].contains word then
    some (Binary.ofBits negative Binary.infinityBits)
  else if unsigned && [".nan", ".NaN", ".NAN"].contains word then some (0.0 / 0.0)
  else
    match decimal? negative unsigned number with
    | some x => some x
    | none => sixtyDouble? negative number

/-- The meaning of a plain scalar. -/
def ofPlain (s : String) : Scalar :=
  if yesWords.contains s then .bool true
  else if noWords.contains s then .bool false
  else if nullWords.contains s then .null
  else
    match double? s.toList, integer? s.toList with
    | some x, _ => .float x
    | none, some n => .int n
    | none, none => .text s

end ScorePortfolio.Yaml

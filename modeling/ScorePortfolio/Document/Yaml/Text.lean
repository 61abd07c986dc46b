import ScorePortfolio.Document.Yaml.Cursor

/-!
# Texts of scalars

How a plain or quoted scalar goes on, over several lines if need be: the end of a line counts as a
space, and each empty line after it as the end of a line.
-/

namespace ScorePortfolio.Yaml

/-- The ends of the empty lines from the start of a line on, with the cursor after them and the
blanks of the line that is not empty; none where a document starts or ends on the way. -/
def emptyLines (blank : Char → Bool) : Nat → Cursor → Option (List Char × Cursor)
  | 0, k => some ([], k)
  | fuel + 1, k =>
    if k.hasSeparator then none
    else
      let k := k.skipWhile blank
      match k.peek with
      | some c =>
        if isBreak c then
          (emptyLines blank fuel k.next).map fun (cs, k) ↦ (lineEnd c :: cs, k)
        else some ([], k)
      | none => some ([], k)

/-- What the end of a line and the empty lines after it count as. -/
def folded (first : Char) (empty : List Char) : List Char :=
  if lineEnd first ≠ '\n' then first :: empty
  else if empty.isEmpty then [' ']
  else empty

/-! ## Plain scalars -/

/-- The marks of flow context. -/
def isFlowMark (c : Char) : Bool := [',', '[', ']', '\x7b', '\x7d'].contains c

/-- Whether a plain scalar ends before a character, given the one after it. -/
def endsPlain (flow : Bool) (c : Char) (after : Option Char) : Bool :=
  isGap (some c) || (c == ':' && (isGap after || (flow && after.any isFlowMark))) ||
    (flow && (c == '?' || isFlowMark c))

/-- The characters up to the end of a plain scalar or the next blank. -/
def plainRun (flow : Bool) : List Char → List Char
  | [] => []
  | c :: cs => if endsPlain flow c cs.head? then [] else c :: plainRun flow cs

/-- What stands after a run of a plain scalar: the text that it counts as, whether there is the end
of a line, and the cursor after it. -/
def plainGap (k : Cursor) : List Char × Bool × Cursor :=
  let after := k.skipWhile (· == ' ')
  match after.peek with
  | some c =>
    if isBreak c then
      match emptyLines (· == ' ') k.rest.length after.next with
      | some (empty, after) => (folded c empty, true, after)
      | none => ([], true, after.skipWhile fun c ↦ c == ' ' || isBreak c)
    else (k.rest.takeWhile (· == ' '), false, after)
  | none => (k.rest.takeWhile (· == ' '), false, after)

/-- The text of a plain scalar, whether the end of a line follows it, and the cursor after it.
Given are the text so far, and the gap after it with whether that has the end of a line.  In block
context each run has to stand right of the indentation. -/
def plainFrom (flow : Bool) (indent : Int) :
    Nat → List Char → List Char → Bool → Cursor → List Char × Bool × Cursor
  | 0, text, _, broken, k => (text, broken, k)
  | fuel + 1, text, gap, broken, k =>
    let run := if k.peek = some '#' then [] else plainRun flow k.rest
    if run.isEmpty then (text, broken, k)
    else
      let text := text ++ gap ++ run
      let (gap, broken, after) := plainGap (k.forward run.length)
      if gap.isEmpty || after.peek == some '#' || (!flow && after.column ≤ indent) then
        (text, broken, after)
      else plainFrom flow indent fuel text gap broken after

/-- The plain scalar at a cursor. -/
def plain (flow : Bool) (indent : Int) (k : Cursor) : List Char × Bool × Cursor :=
  plainFrom flow indent k.rest.length [] [] false k

/-! ## Quoted scalars -/

/-- The characters of the escapes that stand for one. -/
def escapes : List (Char × Char) :=
  [('0', '\x00'), ('a', '\x07'), ('b', '\x08'), ('t', '\t'), ('\t', '\t'), ('n', '\n'),
   ('v', '\x0b'), ('f', '\x0c'), ('r', '\r'), ('e', '\x1b'), (' ', ' '), ('"', '"'), ('\\', '\\'),
   ('/', '/'), ('N', '\u0085'), ('_', '\u00a0'), ('L', '\u2028'), ('P', '\u2029')]

/-- The number of hexadecimal digits after an escape letter. -/
def codeLengths : List (Char × Nat) := [('x', 2), ('u', 4), ('U', 8)]

/-- The value of a hexadecimal digit. -/
def hexValue? (c : Char) : Option Nat :=
  if c.isDigit then some (c.toNat - 48)
  else if 'a' ≤ c ∧ c ≤ 'f' then some (c.toNat - 87)
  else if 'A' ≤ c ∧ c ≤ 'F' then some (c.toNat - 55)
  else none

/-- The number that digits spell in a base, given the value of each. -/
def ofDigits (base : Nat) (values : List Nat) : Nat := values.foldl (fun n d ↦ base * n + d) 0

/-- The character of a code of the given number of hexadecimal digits. -/
def codeChar? (length : Nat) (digits : List Char) : Option Char := do
  let values ← (digits.take length).mapM hexValue?
  let code := ofDigits 16 values
  if values.length = length ∧ code.isValidChar then some (Char.ofNat code) else none

/-- A blank of a quoted scalar. -/
def isQuotedBlank (c : Char) : Bool := c == ' ' || c == '\t'

/-- What an escape stands for, and the cursor after it.  The end of a line can be escaped too. -/
def escape? (k : Cursor) : Option (List Char × Cursor) :=
  match k.rest with
  | _ :: c :: digits =>
    match escapes.lookup c, codeLengths.lookup c with
    | some d, _ => some ([d], k.forward 2)
    | none, some n => (codeChar? n digits).map fun d ↦ ([d], k.forward (n + 2))
    | none, none =>
      if isBreak c then emptyLines isQuotedBlank k.rest.length (k.forward 2) else none
  | _ => none

/-- What blanks and line ends count as, and the cursor after them. -/
def quotedGap? (k : Cursor) : Option (List Char × Cursor) :=
  let after := k.skipWhile isQuotedBlank
  match after.peek with
  | none => none
  | some c =>
    if isBreak c then
      (emptyLines isQuotedBlank k.rest.length after.next).map fun (empty, k) ↦ (folded c empty, k)
    else some (k.rest.takeWhile isQuotedBlank, after)

/-- Whether the closing quote comes next; between single quotes, a quote written twice is none. -/
def closes (quote : Char) (k : Cursor) : Bool :=
  k.peek == some quote && (quote == '"' || k.peekSecond != some quote)

/-- What the next piece inside quotes stands for, and the cursor after it. -/
def piece? (quote : Char) (k : Cursor) : Option (List Char × Cursor) :=
  match k.peek with
  | none => none
  | some c =>
    if isGap (some c) then quotedGap? k
    else if c = quote then some ([c], k.forward 2)
    else if c = '\\' ∧ quote = '"' then escape? k
    else some ([c], k.next)

/-- The text up to the closing quote after a given text, and the cursor after the quote. -/
def quotedFrom (quote : Char) : Nat → List Char → Cursor → Option (List Char × Cursor)
  | 0, _, _ => none
  | fuel + 1, text, k =>
    if closes quote k then some (text, k.next)
    else (piece? quote k).bind fun (more, k) ↦ quotedFrom quote fuel (text ++ more) k

/-- The quoted scalar whose opening quote is at a cursor. -/
def quoted (quote : Char) (k : Cursor) : Option (List Char × Cursor) :=
  quotedFrom quote k.rest.length [] k.next

end ScorePortfolio.Yaml

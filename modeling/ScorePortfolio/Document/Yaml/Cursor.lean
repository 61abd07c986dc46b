/-!
# Places in a text

A cursor is the rest of a text with the place where it starts.  Indentation is told by columns, and
a key has to stand on the line of its colon.
-/

namespace ScorePortfolio.Yaml

/-- Whether a character ends a line. -/
def isBreak (c : Char) : Bool := ['\n', '\u0085', '\u2028', '\u2029'].contains c

/-- What the end of a line counts as in a text. -/
def lineEnd (c : Char) : Char := if c = '\u0085' then '\n' else c

/-- Whether nothing, a blank or the end of a line comes next. -/
def isGap : Option Char → Bool
  | none => true
  | some c => c == ' ' || c == '\t' || isBreak c

/-- The rest of a text and where it starts. -/
structure Cursor where
  /-- The rest. -/
  rest : List Char
  /-- The number of characters before it. -/
  index : Nat
  /-- The number of lines before it. -/
  line : Nat
  /-- The number of characters before it on its line. -/
  column : Nat

namespace Cursor

/-- The start of a text. -/
def start (cs : List Char) : Cursor := ⟨cs, 0, 0, 0⟩

/-- The next character. -/
def peek (k : Cursor) : Option Char := k.rest.head?

/-- The character after the next one. -/
def peekSecond (k : Cursor) : Option Char := k.rest[1]?

/-- The cursor after the next character. -/
def next (k : Cursor) : Cursor :=
  match k.rest with
  | [] => k
  | c :: rest =>
    if isBreak c then ⟨rest, k.index + 1, k.line + 1, 0⟩
    else ⟨rest, k.index + 1, k.line, k.column + 1⟩

/-- The cursor after a number of characters. -/
def forward (k : Cursor) : Nat → Cursor
  | 0 => k
  | n + 1 => k.next.forward n

/-- The cursor after the characters that pass a test. -/
def skipWhile (k : Cursor) (test : Char → Bool) : Cursor :=
  k.forward (k.rest.takeWhile test).length

/-- Whether the text goes on with three given characters and a gap. -/
def hasMark (k : Cursor) (mark : Char) : Bool :=
  k.rest.take 3 == [mark, mark, mark] && isGap k.rest[3]?

/-- Whether a document starts or ends here. -/
def hasSeparator (k : Cursor) : Bool := k.hasMark '-' || k.hasMark '.'

end Cursor

end ScorePortfolio.Yaml

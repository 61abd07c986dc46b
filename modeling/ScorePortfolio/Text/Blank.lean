/-!
# Blanks

The characters that may stand around a number in a text: the six ASCII blanks, and the separators
that Unicode adds to them.  The four ASCII information separators are not among them.
-/

namespace ScorePortfolio.Text

/-- The ASCII blanks: tab, line feed, line tabulation, form feed, carriage return, space. -/
def isAsciiBlank (c : Char) : Bool := (9 ≤ c.toNat && c.toNat ≤ 13) || c == ' '

/-- The blanks beyond ASCII. -/
def wideBlanks : List Nat :=
  [0x85, 0xa0, 0x1680, 0x2000, 0x2001, 0x2002, 0x2003, 0x2004, 0x2005, 0x2006, 0x2007, 0x2008,
   0x2009, 0x200a, 0x2028, 0x2029, 0x202f, 0x205f, 0x3000]

/-- A blank, of ASCII or beyond. -/
def isBlank (c : Char) : Bool := isAsciiBlank c || wideBlanks.contains c.toNat

/-- A text without the blanks on both sides. -/
def trim (cs : List Char) : List Char :=
  ((cs.dropWhile isBlank).reverse.dropWhile isBlank).reverse

end ScorePortfolio.Text

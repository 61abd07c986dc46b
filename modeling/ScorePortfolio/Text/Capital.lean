/-!
# Capital letters

The capital form of a text, as far as it matters to words of ASCII capitals: `a` to `z`, and the
letters beyond ASCII whose capital form is made of ASCII letters.  Every other character stands for
itself, so a text has such a word as its capital form exactly when it has it here.
-/

namespace ScorePortfolio.Text

/-- The letters beyond ASCII with an ASCII capital form. -/
def wideCapitals : List (Char × List Char) :=
  [('ß', ['S', 'S']), ('ı', ['I']), ('ſ', ['S']), ('ﬀ', ['F', 'F']), ('ﬁ', ['F', 'I']),
   ('ﬂ', ['F', 'L']), ('ﬃ', ['F', 'F', 'I']), ('ﬄ', ['F', 'F', 'L']), ('ﬅ', ['S', 'T']),
   ('ﬆ', ['S', 'T'])]

/-- The capital form of a character. -/
def capital (c : Char) : List Char := (wideCapitals.lookup c).getD [c.toUpper]

/-- The capital form of a text. -/
def capitals (s : String) : String := String.ofList (s.toList.flatMap capital)

end ScorePortfolio.Text

import ScorePortfolio.Document.Yaml.Node

/-!
# Configuration files

The document of a YAML text.  A file without a document counts as an empty mapping.
-/

namespace ScorePortfolio.Yaml

/-- Whether a character may stand in a text. -/
def isReadable (c : Char) : Bool :=
  c == '\t' || c == '\n' || (' ' ≤ c && c ≤ '~') || c == '\u0085' ||
    ('\u00a0' ≤ c && c ≠ '\ufffe' && c ≠ '\uffff')

/-- The characters of a text, every end of a line being a line feed. -/
def unifyLines : List Char → List Char
  | '\r' :: '\n' :: cs => '\n' :: unifyLines cs
  | '\r' :: cs => '\n' :: unifyLines cs
  | c :: cs => c :: unifyLines cs
  | [] => []

/-- The text without a byte order mark at its start. -/
def dropOrderMark : List Char → List Char
  | '\ufeff' :: cs => cs
  | cs => cs

/-- The document of a text. -/
def parse? (s : String) : Option Doc :=
  let cs := unifyLines s.toList
  if cs.all isReadable then (Token.ofText? (dropOrderMark cs)).bind document? else none

/-- Why a file gives no document. -/
inductive LoadError where
  /-- There is no file at the path. -/
  | notFound (path : String)
  /-- The text is ill-formed. -/
  | malformed

/-- The message of an error, where it has one of its own. -/
def LoadError.message? : LoadError → Option String
  | notFound path => some s!"Configuration file not found: {path}"
  | malformed => none

/-- The document of a file, given its text if the file exists. -/
def load (path : String) : Option String → Except LoadError Doc
  | none => .error (.notFound path)
  | some s =>
    match parse? s with
    | none => .error .malformed
    | some (.scalar .null) => .ok (.map [])
    | some doc => .ok doc

end ScorePortfolio.Yaml

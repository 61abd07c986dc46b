import ScorePortfolio.Document.Yaml.Text

/-!
# Tokens

A text is cut into the marks of its structure and its scalars.  Indentation becomes brackets of its
own: a block opens where a list entry or a key stands further right than the enclosing block, and
closes where the text goes back.  Whether a scalar or a flow collection is a key shows only at the
colon after it; the place before it is kept as a `spot`, and the colon turns the spot into the mark
of a key.
-/

namespace ScorePortfolio.Yaml

/-- A mark or a scalar of a text. -/
inductive Token where
  | documentStart
  | documentEnd
  | blockList
  | blockMap
  | blockEnd
  | flowList
  | flowListEnd
  | flowMap
  | flowMapEnd
  /-- The dash of a list entry. -/
  | dash
  | comma
  /-- The place before a key. -/
  | key
  /-- The place before the value of a key. -/
  | value
  /-- A scalar; only a plain one can be something else than a text. -/
  | scalar (plain : Bool) (text : String)
deriving DecidableEq

/-- A token, or the place before something that may be a key. -/
inductive Item where
  | token (t : Token)
  | spot (number : Nat)

/-- A place before something that may be a key. -/
structure Candidate where
  /-- The number of the spot. -/
  spot : Nat
  /-- Whether only a key can stand there. -/
  required : Bool
  /-- Where it is. -/
  place : Cursor

/-- The most characters between the start of a key and its colon. -/
def keyLimit : Nat := 1024

/-- A text cut up to a cursor. -/
structure Lexer where
  /-- Where to go on. -/
  cursor : Cursor
  /-- The items so far, the latest first. -/
  items : List Item
  /-- The number of spots so far. -/
  spots : Nat
  /-- The spots that turned out to be keys, each with whether it opens a block. -/
  keys : List (Nat × Bool)
  /-- The candidate of the block context. -/
  blockCandidate : Option Candidate
  /-- The candidates of the flow collections that are open, the innermost first. -/
  flowCandidates : List (Option Candidate)
  /-- The columns of the blocks that are open, the innermost first. -/
  indents : List Int
  /-- Whether a key may start here. -/
  keyAllowed : Bool

namespace Lexer

/-- The start of a text. -/
def start (cs : List Char) : Lexer := ⟨.start cs, [], 0, [], none, [], [], true⟩

/-- Whether a flow collection is open. -/
def inFlow (s : Lexer) : Bool := !s.flowCandidates.isEmpty

/-- The column of the innermost block. -/
def indent (s : Lexer) : Int := s.indents.headD (-1)

/-- The candidate of the innermost context. -/
def candidate (s : Lexer) : Option Candidate := s.flowCandidates.headD s.blockCandidate

/-- Sets the candidate of the innermost context. -/
def setCandidate (s : Lexer) (c : Option Candidate) : Lexer :=
  match s.flowCandidates with
  | [] => { s with blockCandidate := c }
  | _ :: outer => { s with flowCandidates := c :: outer }

/-- Adds a token. -/
def push (s : Lexer) (t : Token) : Lexer := { s with items := .token t :: s.items }

/-- Adds a token and goes on after its characters. -/
def take (s : Lexer) (t : Token) (length : Nat) : Lexer :=
  { s.push t with cursor := s.cursor.forward length }

/-- Gives up the candidate of the innermost context, which must not be required. -/
def drop? (s : Lexer) : Option Lexer :=
  if s.candidate.any (·.required) then none else some (s.setCandidate none)

/-- Makes the place here a candidate, if a key may start here. -/
def mark? (s : Lexer) : Option Lexer := do
  if s.keyAllowed then
    let required := !s.inFlow && s.indent == s.cursor.column
    let s ← s.drop?
    let c : Candidate := ⟨s.spots, required, s.cursor⟩
    return { s.setCandidate (some c) with items := .spot s.spots :: s.items, spots := s.spots + 1 }
  else return s

/-- Whether a candidate can no longer become a key. -/
def isStale (s : Lexer) (c : Candidate) : Bool :=
  c.place.line != s.cursor.line || keyLimit < s.cursor.index - c.place.index

/-- Gives up the candidates that can no longer become keys, none of which must be required. -/
def refresh? (s : Lexer) : Option Lexer :=
  if (s.blockCandidate :: s.flowCandidates).any fun c ↦ c.any fun c ↦ c.required && s.isStale c then
    none
  else
    let keep (c : Option Candidate) := c.filter fun c ↦ !s.isStale c
    some { s with
      blockCandidate := keep s.blockCandidate
      flowCandidates := s.flowCandidates.map keep }

/-- Closes the blocks right of a column. -/
def unwind (s : Lexer) (column : Int) : Lexer :=
  if s.inFlow then s
  else
    let closed := (s.indents.takeWhile (column < ·)).length
    { s with
      indents := s.indents.drop closed
      items := List.replicate closed (.token .blockEnd) ++ s.items }

/-- Opens a block at a column that is right of the innermost one. -/
def openBlock (s : Lexer) (column : Nat) (t : Token) : Lexer :=
  if s.indent < column then { s.push t with indents := column :: s.indents } else s

/-! ## Blanks -/

/-- Skips blanks, comments and line ends.  On a new line of block context a key may start. -/
def skip : Nat → Lexer → Lexer
  | 0, s => s
  | fuel + 1, s =>
    let k := s.cursor.skipWhile (· == ' ')
    let k := if k.peek = some '#' then k.skipWhile (!isBreak ·) else k
    if k.peek.any isBreak then
      skip fuel { s with cursor := k.next, keyAllowed := s.keyAllowed || !s.inFlow }
    else { s with cursor := k }

/-! ## Marks -/

/-- The start or the end of a document. -/
def separator? (s : Lexer) (t : Token) : Option Lexer := do
  let s ← (s.unwind (-1)).drop?
  return { s.take t 3 with keyAllowed := false }

/-- The start of a flow collection. -/
def openFlow? (s : Lexer) (t : Token) : Option Lexer := do
  let s ← s.mark?
  return { s.take t 1 with flowCandidates := none :: s.flowCandidates, keyAllowed := true }

/-- The end of a flow collection. -/
def closeFlow? (s : Lexer) (t : Token) : Option Lexer := do
  let s ← s.drop?
  return { s.take t 1 with flowCandidates := s.flowCandidates.tail, keyAllowed := false }

/-- A comma. -/
def comma? (s : Lexer) : Option Lexer := do
  let s ← s.drop?
  return { s.take .comma 1 with keyAllowed := true }

/-- The dash of a list entry, which may open a block. -/
def dash? (s : Lexer) : Option Lexer := do
  if !s.inFlow && !s.keyAllowed then none
  else
    let s := if s.inFlow then s else s.openBlock s.cursor.column .blockList
    let s ← s.drop?
    return { s.take .dash 1 with keyAllowed := true }

/-- The question mark of a key, which may open a block. -/
def question? (s : Lexer) : Option Lexer := do
  if !s.inFlow && !s.keyAllowed then none
  else
    let s := if s.inFlow then s else s.openBlock s.cursor.column .blockMap
    let s ← s.drop?
    return { s.take .key 1 with keyAllowed := !s.inFlow }

/-- The colon after a candidate, which becomes a key and may open a block. -/
def confirm (s : Lexer) (c : Candidate) : Lexer :=
  let opens := !s.inFlow && s.indent < c.place.column
  let s := s.setCandidate none
  { s.take .value 1 with
    keys := (c.spot, opens) :: s.keys
    indents := if opens then c.place.column :: s.indents else s.indents
    keyAllowed := false }

/-- The colon of a value. -/
def colon? (s : Lexer) : Option Lexer :=
  match s.candidate with
  | some c => some (s.confirm c)
  | none =>
    if !s.inFlow && !s.keyAllowed then none
    else do
      let s := if s.inFlow then s else s.openBlock s.cursor.column .blockMap
      let s ← s.drop?
      return { s.take .value 1 with keyAllowed := !s.inFlow }

/-! ## Scalars -/

/-- A quoted scalar. -/
def quoted? (s : Lexer) (quote : Char) : Option Lexer := do
  let s ← s.mark?
  let (text, after) ← Yaml.quoted quote s.cursor
  return { s.push (.scalar false (String.ofList text)) with cursor := after, keyAllowed := false }

/-- A plain scalar. -/
def plain? (s : Lexer) : Option Lexer := do
  let s ← s.mark?
  let (text, broken, after) := Yaml.plain s.inFlow s.indent s.cursor
  return { s.push (.scalar true (String.ofList text)) with cursor := after, keyAllowed := broken }

/-- The characters that start no plain scalar by themselves. -/
def reserved : List Char :=
  ['-', '?', ':', ',', '[', ']', '\x7b', '\x7d', '#', '&', '*', '!', '|', '>', '\'', '"', '%', '@',
   '\x60']

/-- Whether a plain scalar can start with a character before another. -/
def startsPlain (flow : Bool) (c : Char) (after : Option Char) : Bool :=
  !isGap (some c) && (!reserved.contains c ||
    (!isGap after && (c == '-' || (!flow && (c == '?' || c == ':')))))

/-- Adds what starts with the given character. -/
def step? (s : Lexer) (c : Char) : Option Lexer :=
  let k := s.cursor
  let gap := isGap k.peekSecond
  if k.column == 0 && k.hasMark '-' then s.separator? .documentStart
  else if k.column == 0 && k.hasMark '.' then s.separator? .documentEnd
  else if c = '[' then s.openFlow? .flowList
  else if c = '\x7b' then s.openFlow? .flowMap
  else if c = ']' then s.closeFlow? .flowListEnd
  else if c = '\x7d' then s.closeFlow? .flowMapEnd
  else if c = ',' then s.comma?
  else if c = '-' ∧ gap then s.dash?
  else if c = '?' ∧ (s.inFlow ∨ gap) then s.question?
  else if c = ':' ∧ (s.inFlow ∨ gap) then s.colon?
  else if c = '\'' ∨ c = '"' then s.quoted? c
  else if startsPlain s.inFlow c k.peekSecond then s.plain?
  else none

/-- Cuts the text to its end. -/
def run? : Nat → Lexer → Option Lexer
  | 0, _ => none
  | fuel + 1, s => do
    let s ← (skip s.cursor.rest.length s).refresh?
    let s := s.unwind s.cursor.column
    match s.cursor.peek with
    | none => (s.unwind (-1)).drop?
    | some c => run? fuel (← s.step? c)

/-- The tokens that an item stands for. -/
def tokensOf (s : Lexer) : Item → List Token
  | .token t => [t]
  | .spot n =>
    match s.keys.lookup n with
    | some true => [.blockMap, .key]
    | some false => [.key]
    | none => []

/-- The tokens in the order of the text. -/
def tokens (s : Lexer) : List Token := s.items.reverse.flatMap s.tokensOf

end Lexer

/-- The tokens of a text. -/
def Token.ofText? (cs : List Char) : Option (List Token) :=
  (Lexer.run? (cs.length + 1) (.start cs)).map (·.tokens)

end ScorePortfolio.Yaml

import ScorePortfolio.Document.Basic
import ScorePortfolio.Document.Yaml.Plain
import ScorePortfolio.Document.Yaml.Token

/-!
# Documents from tokens

A node is a scalar, a flow collection between its brackets, or a block between the marks of its
indentation; a list below a key may go without indentation.  Each reader returns the tokens that it
leaves.  Every step takes a token or goes down one level of the grammar, so a multiple of the number
of tokens bounds the steps.
-/

namespace ScorePortfolio.Yaml

/-- The value of a scalar token. -/
def scalarOf (plain : Bool) (text : String) : Doc :=
  .scalar (if plain then ofPlain text else .text text)

/-- Whether one of some tokens, or the end, comes next. -/
def endsWith (ends : List Token) : List Token → Bool
  | [] => true
  | t :: _ => ends.contains t

/-- The key that a node stands for, which has to be a scalar. -/
def keyOf? : Doc → Option Scalar
  | .scalar s => some s
  | _ => none

mutual

/-- A node.  Blocks, and lists without indentation, stand where the context allows them. -/
def node (block bare : Bool) : Nat → List Token → Option (Doc × List Token)
  | 0, _ => none
  | fuel + 1, ts =>
    match ts with
    | .scalar plain text :: ts => some (scalarOf plain text, ts)
    | .flowList :: ts => (flowItems true fuel ts).map fun (xs, ts) ↦ (.list xs, ts)
    | .flowMap :: ts => (flowEntries true fuel ts).map fun (es, ts) ↦ (.ofEntries es, ts)
    | .blockList :: ts =>
      if block then (blockItems fuel ts).map fun (xs, ts) ↦ (.list xs, ts) else none
    | .blockMap :: ts =>
      if block then (blockEntries fuel ts).map fun (es, ts) ↦ (.ofEntries es, ts) else none
    | .dash :: _ => if bare then (bareItems fuel ts).map fun (xs, ts) ↦ (.list xs, ts) else none
    | _ => none

/-- A node, or null before one of some tokens. -/
def nodeOrNull (block bare : Bool) (ends : List Token) :
    Nat → List Token → Option (Doc × List Token)
  | 0, _ => none
  | fuel + 1, ts => if endsWith ends ts then some (.null, ts) else node block bare fuel ts

/-- The items of a list that is a block. -/
def blockItems : Nat → List Token → Option (List Doc × List Token)
  | 0, _ => none
  | fuel + 1, ts =>
    match ts with
    | .blockEnd :: ts => some ([], ts)
    | .dash :: ts => do
      let (x, ts) ← nodeOrNull true false [.dash, .blockEnd] fuel ts
      let (xs, ts) ← blockItems fuel ts
      some (x :: xs, ts)
    | _ => none

/-- The items of a list without indentation. -/
def bareItems : Nat → List Token → Option (List Doc × List Token)
  | 0, _ => none
  | fuel + 1, ts =>
    match ts with
    | .dash :: ts => do
      let (x, ts) ← nodeOrNull true false [.dash, .key, .value, .blockEnd] fuel ts
      let (xs, ts) ← bareItems fuel ts
      some (x :: xs, ts)
    | _ => some ([], ts)

/-- The entries of a mapping that is a block. -/
def blockEntries : Nat → List Token → Option (List (Scalar × Doc) × List Token)
  | 0, _ => none
  | fuel + 1, ts =>
    match ts with
    | .blockEnd :: ts => some ([], ts)
    | .key :: ts => do
      let (key, ts) ← nodeOrNull true true [.key, .value, .blockEnd] fuel ts
      let (x, ts) ← valueAfter true [.key, .value, .blockEnd] fuel ts
      let (es, ts) ← blockEntries fuel ts
      some ((← keyOf? key, x) :: es, ts)
    | _ => none

/-- The value of a key: what stands after the mark of a value, null where there is none. -/
def valueAfter (block : Bool) (ends : List Token) : Nat → List Token → Option (Doc × List Token)
  | 0, _ => none
  | fuel + 1, ts =>
    match ts with
    | .value :: ts => nodeOrNull block block ends fuel ts
    | _ => some (.null, ts)

/-- The items of a flow list; before each but the first stands a comma, and a key with its value is
a mapping of its own. -/
def flowItems (first : Bool) : Nat → List Token → Option (List Doc × List Token)
  | 0, _ => none
  | fuel + 1, ts =>
    match first, ts with
    | _, .flowListEnd :: ts => some ([], ts)
    | false, .comma :: .flowListEnd :: ts => some ([], ts)
    | false, .comma :: ts => flowItem fuel ts
    | false, _ => none
    | true, ts => flowItem fuel ts

/-- An item of a flow list, and those after it. -/
def flowItem : Nat → List Token → Option (List Doc × List Token)
  | 0, _ => none
  | fuel + 1, ts =>
    match ts with
    | .key :: ts => do
      let (key, ts) ← nodeOrNull false false [.value, .comma, .flowListEnd] fuel ts
      let (x, ts) ← valueAfter false [.comma, .flowListEnd] fuel ts
      let (xs, ts) ← flowItems false fuel ts
      some (.map [(← keyOf? key, x)] :: xs, ts)
    | ts => do
      let (x, ts) ← node false false fuel ts
      let (xs, ts) ← flowItems false fuel ts
      some (x :: xs, ts)

/-- The entries of a flow mapping; before each but the first stands a comma. -/
def flowEntries (first : Bool) : Nat → List Token → Option (List (Scalar × Doc) × List Token)
  | 0, _ => none
  | fuel + 1, ts =>
    match first, ts with
    | _, .flowMapEnd :: ts => some ([], ts)
    | false, .comma :: .flowMapEnd :: ts => some ([], ts)
    | false, .comma :: ts => flowEntry fuel ts
    | false, _ => none
    | true, ts => flowEntry fuel ts

/-- An entry of a flow mapping, and those after it; a node without the mark of a key has no
value. -/
def flowEntry : Nat → List Token → Option (List (Scalar × Doc) × List Token)
  | 0, _ => none
  | fuel + 1, ts =>
    match ts with
    | .key :: ts => do
      let (key, ts) ← nodeOrNull false false [.value, .comma, .flowMapEnd] fuel ts
      let (x, ts) ← valueAfter false [.comma, .flowMapEnd] fuel ts
      let (es, ts) ← flowEntries false fuel ts
      some ((← keyOf? key, x) :: es, ts)
    | ts => do
      let (key, ts) ← node false false fuel ts
      let (es, ts) ← flowEntries false fuel ts
      some ((← keyOf? key, .null) :: es, ts)

end

/-- The steps that suffice for a number of tokens. -/
def stepsFor (ts : List Token) : Nat := 4 * ts.length + 4

/-- The one document of a list of tokens. -/
def document? (ts : List Token) : Option Doc := do
  let ends : List Token := [.documentStart, .documentEnd]
  let (doc, rest) ← match ts with
    | [] => some (Doc.null, [])
    | .documentStart :: ts => nodeOrNull true false ends (stepsFor ts) ts
    | ts => node true false (stepsFor ts) ts
  if rest.all (· == .documentEnd) then some doc else none

end ScorePortfolio.Yaml

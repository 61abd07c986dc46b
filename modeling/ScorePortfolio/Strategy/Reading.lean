import ScorePortfolio.Strategy.Error

/-!
# Strategies read from documents

A document is read in its own order, and the first defect decides.  Names and roles have to count as
a yes; operands that count as a no are none.
-/

namespace ScorePortfolio

/-- The value of a key of a mapping, null where it is absent; only mappings have keys. -/
def Doc.entry (doc : Doc) (key : String) : Except StrategyError Doc :=
  match doc with
  | .map _ => .ok ((doc.field? key).getD .null)
  | _ => .error .notMapping

/-- The text of a value; null has none. -/
def Doc.literal? : Doc → Option String
  | .scalar .null => none
  | doc => some doc.asText

namespace Operand

/-- The operand that a document describes, for the calculation of a name. -/
def ofDoc (calculation doc : Doc) : Except StrategyError Operand := do
  let role ← doc.entry "name"
  if !role.isTruthy then .error (.operand calculation unnamedRole .unnamed)
  else
    let kind ← doc.entry "type"
    match kind with
    | .scalar (.text word) =>
      match OperandKind.ofWord? word with
      | some known => .ok ⟨role, known, (← doc.entry "value").literal?⟩
      | none => .error (.operand calculation role (.unknownKind kind))
    | _ => .error (.operand calculation role (.unknownKind kind))

end Operand

namespace Calculation

/-- The items that stand for operands.  What counts as a no has none; the keys of a mapping and the
characters of a text are texts, which describe no operand; other values have no items. -/
def operandItems : Doc → Except StrategyError (List Doc)
  | .list items => .ok items
  | doc =>
    if !doc.isTruthy then .ok []
    else
      match doc with
      | .map _ | .scalar (.text _) => .error .notMapping
      | _ => .error .notIterable

/-- The calculation that a document describes; a defect of the whole concerns the strategy of the
given name. -/
def ofDoc (strategy doc : Doc) : Except StrategyError Calculation := do
  let name ← doc.entry "name"
  if !name.isTruthy then .error (.invalid strategy .unnamedCalculation)
  else
    let word ← doc.entry "operation"
    match Operation.parse? word.asText with
    | none => .error (.invalid strategy (.unknownOperation name word))
    | some operation =>
      let items ← operandItems (← doc.entry "operands")
      .ok ⟨name, operation, ← items.mapM (Operand.ofDoc name)⟩

end Calculation

namespace Strategy

/-- The name of the score: the value of `calc` under `score`, null where there is no such
mapping. -/
def scoreName (doc : Doc) : Doc :=
  ((doc.field? "score").bind (·.field? "calc")).getD .null

/-- The strategy that a document describes. -/
def ofDoc (doc : Doc) : Except StrategyError Strategy := do
  let name ← doc.entry "name"
  if !name.isTruthy then .error (.invalid unknownName .noName)
  else if !(scoreName doc).isTruthy then .error (.invalid name .noScore)
  else
    match doc.field? "calcs" with
    | some (.list items) => .ok ⟨name, scoreName doc, ← items.mapM (Calculation.ofDoc name)⟩
    | _ => .error (.invalid name .noCalculationList)

end Strategy

end ScorePortfolio

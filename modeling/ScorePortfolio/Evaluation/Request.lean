import ScorePortfolio.Market.Client
import ScorePortfolio.Document.Scalar
import ScorePortfolio.Graph.Node

/-!
# Requests to a client

A request names everything that a query depends on.  A failing request says so, except that an
unknown asset is reported as the client reports it.
-/

namespace ScorePortfolio

/-- What is asked of a client. -/
structure Request where
  /-- The asset. -/
  asset : Asset
  /-- The moment as of which the field is read. -/
  asOf : Option Instant
  /-- The field; without one, the default field. -/
  field : Option String
deriving DecidableEq

/-- Why a pass over a graph, or a request, has no result. -/
inductive EvaluationError where
  /-- The client does not know a symbol. -/
  | assetNotFound (symbol : String)
  /-- The client fails in another way. -/
  | request (request : Request) (cause : ClientError)
  /-- An operation on series has no result. -/
  | series (cause : SeriesError)
  /-- A node reads the node of a name, which has not run yet. -/
  | notComputed (name : Scalar)
  /-- A node reads a position that does not exist. -/
  | noSuchPosition
  /-- A node reads something that is no step and has no name. -/
  | foreignOperand
  /-- There is something among the nodes that is no step. -/
  | foreignNode
  /-- The operation of a node is not one of its kind. -/
  | foreignOperation {operation : Operation}
deriving DecidableEq

namespace Request

/-- The text of a field that may be absent. -/
def fieldText (field : Option String) : String := (field.elim Scalar.null Scalar.text).asText

/-- The text of a field that may be absent, with quotes around the name. -/
def shownField (field : Option String) : String := (field.elim Scalar.null Scalar.text).shown

/-- The message of a failed request. -/
def failureText (r : Request) (cause : ClientError) : String :=
  s!"Query for {r.asset.symbol} field={shownField r.field} as of {Instant.textOf r.asOf} " ++
    s!"failed: {cause.text}"

/-- The answer of a client to a request. -/
def send {α : Type} (r : Request) (c : Client α) : Except EvaluationError (Series α) :=
  match c.query r.asset r.asOf r.field with
  | .ok s => .ok s
  | .error (.assetNotFound symbol) => .error (.assetNotFound symbol)
  | .error cause => .error (.request r cause)

end Request

namespace EvaluationError

/-- The text of an error. -/
def text : EvaluationError → String
  | assetNotFound symbol => ClientError.assetNotFoundText symbol
  | request r cause => r.failureText cause
  | series cause => cause.message
  | notComputed name => s!"Upstream calculation '{name.asText}' not computed"
  | noSuchPosition => "list index out of range"
  | foreignOperand => s!"'{Node.foreign.typeName}' object has no attribute 'name'"
  | foreignNode => s!"Unknown node type {Node.foreign.typeName}"
  | @foreignOperation operation => s!"<Operation.{operation.word}: '{operation.word}'>"

/-- The message that an error is shown with.  Where a position or an operation is looked up in vain,
the kind of the error is shown without its text. -/
def message? : EvaluationError → Option String
  | noSuchPosition | foreignOperation => none
  | e => some e.text

/-- Whether the error is one that a pass reports in the log. -/
def isReported : EvaluationError → Bool
  | assetNotFound _ | request .. | series _ | notComputed _ => true
  | noSuchPosition | foreignOperand | foreignNode | foreignOperation => false

end EvaluationError

end ScorePortfolio

import ScorePortfolio.Evaluation.Request
import ScorePortfolio.Graph.Node
import ScorePortfolio.Series.Transform
import ScorePortfolio.Log

/-!
# Passes over a graph

A pass runs every node of a graph once, in order, for one asset as of one moment.  A node reads the
outputs of earlier nodes, and the first node that fails ends the pass.  Beside its result a pass has
its events: which requests it sent, and what came of them.
-/

namespace ScorePortfolio

/-- What happens during a pass. -/
inductive Event where
  /-- A request is sent. -/
  | asked (request : Request)
  /-- The request of a node is answered with a number of points. -/
  | served (name : Scalar) (request : Request) (points : Nat)
  /-- A node fails. -/
  | failed (name : Scalar) (asset : Asset) (asOf : Option Instant) (error : EvaluationError)
deriving DecidableEq

namespace Event

/-- The record of an event. -/
def record? : Event → Option Record
  | asked _ => none
  | served name r points =>
    some ⟨.debug, s!"{name.asText}: {r.asset.symbol} {Request.fieldText r.field} as of " ++
      s!"{Instant.textOf r.asOf}: {points} points"⟩
  | failed name asset asOf error =>
    if error.isReported then
      some ⟨.debug, s!"Calculation '{name.asText}' failed for {asset.symbol} as of " ++
        s!"{Instant.textOf asOf}: " ++ error.text⟩
    else none

/-- The request of an event that sends one. -/
def request? : Event → Option Request
  | asked r => some r
  | _ => none

end Event

/-- What comes out of a computation, with the events on the way. -/
structure Outcome (β : Type) where
  /-- The events, in order. -/
  events : List Event
  /-- The result. -/
  result : Except EvaluationError β

/-- The outputs of a graph for an asset as of a moment. -/
structure AssetScore (α : Type) where
  /-- The asset. -/
  asset : Asset
  /-- The moment. -/
  asOf : Option Instant
  /-- The output of the calculation that gives the score. -/
  score : Series α
  /-- The output of every calculation by name, in the order of the nodes. -/
  outputs : List (Scalar × Series α)

namespace Node

variable {α : Type}

/-- The output of the node at a position, if it has run. -/
def operand (nodes : List Node) (outputs : List (Series α)) (position : Int) :
    Except EvaluationError (Series α) :=
  match position? nodes.length position with
  | none => .error .noSuchPosition
  | some i =>
    match outputs[i]? with
    | some s => .ok s
    | none =>
      match (nodes[i]?).bind name? with
      | some name => .error (.notComputed name)
      | none => .error .foreignOperand

/-- The output of a node, from the outputs of the nodes before it. -/
def run [Quantity α] (c : Client α) (asset : Asset) (asOf : Option Instant) (nodes : List Node)
    (outputs : List (Series α)) : Node → Outcome (Series α)
  | query name field =>
    let r : Request := ⟨asset, asOf, field⟩
    match r.send c with
    | .ok s => ⟨[.asked r, .served name r s.length], .ok s⟩
    | .error e => ⟨[.asked r], .error e⟩
  | scalar _ operation source number =>
    ⟨[], match operation with
      | .scalar op => do
        let s ← operand nodes outputs source
        (s.withScalar op (Quantity.ofFloat number)).mapError .series
      | other => .error (@EvaluationError.foreignOperation other)⟩
  | series _ operation left right =>
    ⟨[], match operation with
      | .series op => do
        let a ← operand nodes outputs left
        let b ← operand nodes outputs right
        (a.withSeries op b).mapError .series
      | other => .error (@EvaluationError.foreignOperation other)⟩
  | sma _ source window =>
    ⟨[], do
      let s ← operand nodes outputs source
      (s.sma window).mapError .series⟩
  | foreign => ⟨[], .error .foreignNode⟩

/-- The events and outputs of a run of nodes, given the outputs of those before them. -/
def runAll [Quantity α] (c : Client α) (asset : Asset) (asOf : Option Instant) (nodes : List Node)
    (outputs : List (Series α)) : List Node → Outcome (List (Series α))
  | [] => ⟨[], .ok outputs⟩
  | node :: rest =>
    let this := node.run c asset asOf nodes outputs
    match this.result with
    | .ok s =>
      let others := runAll c asset asOf nodes (outputs ++ [s]) rest
      ⟨this.events ++ others.events, others.result⟩
    | .error e =>
      ⟨this.events ++ (node.name?.map fun name ↦ .failed name asset asOf e).toList, .error e⟩

end Node

namespace Graph

variable {α : Type}

/-- The score and the named outputs of a finished pass. -/
def collect (g : Graph) (asset : Asset) (asOf : Option Instant) (outputs : List (Series α)) :
    Except EvaluationError (AssetScore α) :=
  match (position? g.length g.scorePosition).bind (outputs[·]?) with
  | none => .error .noSuchPosition
  | some score =>
    .ok ⟨asset, asOf, score, Entries.ofList Scalar.same (g.executionOrder.zip outputs)⟩

/-- A pass over a graph for an asset as of a moment. -/
def evaluate [Quantity α] (g : Graph) (c : Client α) (asset : Asset) (asOf : Option Instant) :
    Outcome (AssetScore α) :=
  let pass := Node.runAll c asset asOf g.nodes [] g.nodes
  ⟨pass.events, pass.result.bind (g.collect asset asOf)⟩

end Graph

end ScorePortfolio

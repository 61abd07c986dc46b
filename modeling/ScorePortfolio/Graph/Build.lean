import ScorePortfolio.Graph.Digraph
import ScorePortfolio.Graph.Node
import ScorePortfolio.Strategy.Error
import ScorePortfolio.Decimal.Literal
import ScorePortfolio.Log

/-!
# Graphs of strategies

A strategy becomes a graph in two stages.  The plan fixes the order of the calculations: the names
are distinct, the score is among them, every reference leads to a calculation, and the references
have no cycle.  Compiling turns each calculation into a node that reads positions instead of names,
and its literals into numbers.  The first broken rule decides.
-/

namespace ScorePortfolio

/-! ## Names -/

/-- A number in units of the smallest double, by which numbers of either kind are ordered. -/
def Scalar.units? : Scalar → Option Int
  | .bool b => some (if b then Binary.unitsInOne else 0)
  | .int n => some (n * Binary.unitsInOne)
  | .float x => some (Binary.units x)
  | _ => none

/-- A text. -/
def Scalar.text? : Scalar → Option String
  | .text s => some s
  | _ => none

/-- Names with their keys, in the order of the keys. -/
def sortByKey {κ : Type} (le : κ → κ → Bool) (keyed : List (κ × Scalar)) : List Scalar :=
  (keyed.mergeSort fun a b ↦ le a.1 b.1).map (·.2)

/-- Names in order: texts by their characters, numbers by their values.  Texts and numbers have no
order in common. -/
def sortNames (names : List Scalar) : Except StrategyError (List Scalar) :=
  if names.length ≤ 1 then .ok names
  else
    match names.mapM Scalar.text?, names.mapM Scalar.units? with
    | some texts, _ => .ok (sortByKey (fun a b ↦ a ≤ b) (texts.zip names))
    | _, some units => .ok (sortByKey (fun a b ↦ a ≤ b) (units.zip names))
    | none, none => .error .unorderedNames

namespace Strategy

/-- The calculations with their names, which have to be scalars. -/
def named (s : Strategy) : Except StrategyError (List (Scalar × Calculation)) :=
  s.calculations.mapM fun c ↦
    match c.name with
    | .scalar name => .ok (name, c)
    | _ => .error .compositeName

end Strategy

/-- The names that occur more than once, each once. -/
def repeatedNames (names : List Scalar) : List Scalar :=
  (names.filter fun n ↦ 1 < names.countP n.same).eraseDupsBy Scalar.same

/-! ## Dependencies -/

/-- The dependency that an operand of a calculation stands for: from the calculation it names to the
one it belongs to.  A query may refer to what is no calculation. -/
def Operand.edge? (strategy : Doc) (names : List Scalar) (name : Scalar) (c : Calculation)
    (o : Operand) : Except StrategyError (Option (Scalar × Scalar)) :=
  if !o.isReference then .ok none
  else
    match o.value with
    | some v =>
      if .text v ∈ names then .ok (some (.text v, name))
      else if c.operation = .query then .ok none
      else .error (.invalid strategy (.unknownReference c.name o.value o.role))
    | none =>
      if c.operation = .query then .ok none
      else .error (.invalid strategy (.unknownReference c.name none o.role))

/-- The dependencies of calculations, each once, in the order of the document. -/
def collectEdges (strategy : Doc) (named : List (Scalar × Calculation)) :
    Except StrategyError (List (Scalar × Scalar)) := do
  let names := named.map (·.1)
  let found ← named.mapM fun (name, c) ↦ c.operands.mapM (Operand.edge? strategy names name c)
  return (found.flatten.filterMap id).eraseDups

/-! ## Plan -/

/-- The parts into which the calculations of a strategy fall where they do not hang together. -/
structure Looseness where
  /-- How many parts there are. -/
  count : Nat
  /-- The calculations in other parts than the score. -/
  orphans : List Scalar

/-- What is known of a strategy before its operands are compiled. -/
structure Plan where
  /-- The calculations with their names. -/
  named : List (Scalar × Calculation)
  /-- The name of the score. -/
  score : Scalar
  /-- The dependencies. -/
  edges : List (Scalar × Scalar)
  /-- The names in an order in which every dependency leads forward. -/
  order : List Scalar
  /-- The parts, if there are several. -/
  looseness : Option Looseness

/-- The parts of a graph, if there are several, with those out of reach of the score. -/
def looseness? (g : Digraph Scalar) (score : Scalar) : Except StrategyError (Option Looseness) := do
  if g.components.length = 1 then return none
  let reached := g.component score
  let orphans ← sortNames (g.vertices.filter (· ∉ reached))
  return some ⟨g.components.length, orphans⟩

/-- The calculations with their names, if these are distinct. -/
def Strategy.distinctlyNamed (s : Strategy) :
    Except StrategyError (List (Scalar × Calculation)) := do
  if s.calculations.isEmpty then throw (.invalid s.name .noCalculations)
  let named ← s.named
  match ← sortNames (repeatedNames (named.map (·.1))) with
  | [] => return named
  | names => throw (.invalid s.name (.duplicateNames names))

/-- The plan of a strategy.  Parts that do not hang together are an error if that is asked for. -/
def Strategy.plan (s : Strategy) (strict : Bool) : Except StrategyError Plan := do
  let named ← s.distinctlyNamed
  let names := named.map (·.1)
  match names.find? fun n ↦ (Doc.scalar n).same s.score with
  | none => throw (.invalid s.name (.unknownScore s.score))
  | some score =>
    let edges ← collectEdges s.name named
    let g : Digraph Scalar := ⟨names, edges⟩
    if !g.stuck.isEmpty then throw (.invalid s.name (.cycle g.stuck))
    let loose ← looseness? g score
    match strict, loose with
    | true, some l => throw (.invalid s.name (.disconnected l.count l.orphans))
    | _, _ => return ⟨named, score, edges, g.order, loose⟩

/-! ## Operands -/

namespace Calculation

/-- The operand of a role that the operation needs. -/
def required (c : Calculation) (role : String) : Except StrategyError Operand :=
  match c.operand? (.text role) with
  | some o => .ok o
  | none => .error (.operand c.name (.text role) (.missing c.operation))

/-- The operand of a role, of one of the types that the operation takes. -/
def requiredOf (c : Calculation) (role : String) (kinds : List OperandKind) :
    Except StrategyError Operand := do
  let o ← c.required role
  if o.kind ∈ kinds then return o
  else throw (.operand c.name (.text role) (.wrongKind kinds o.kind))

/-- The field that a query reads, if it names one; a reference to a field is as good as its text. -/
def field (c : Calculation) : Except StrategyError (Option String) :=
  match c.operand? (.text "field") with
  | none => .ok none
  | some o =>
    if o.kind = .text ∨ o.kind = .reference then .ok o.value
    else .error (.operand c.name (.text "field") (.wrongKind [.text] o.kind))

/-- The position of the calculation that an operand names. -/
def source (c : Calculation) (strategy : Doc) (order : List Scalar) (role : String) :
    Except StrategyError Int := do
  let o ← c.requiredOf role [.reference]
  match o.value.bind fun v ↦ order.idxOf? (.text v) with
  | some i => return i
  | none => throw (.invalid strategy (.unknownReference c.name o.value o.role))

/-- The finite number of an operand. -/
def number (c : Calculation) (role : String) : Except StrategyError Float := do
  let o ← c.requiredOf role [.decimal, .integer]
  match o.value with
  | none => throw (.operand c.name (.text role) (.noNumber none))
  | some text =>
    match Decimal.double? text with
    | none => throw (.operand c.name (.text role) (.noNumber (some text)))
    | some x =>
      if x.isFinite then return x
      else throw (.operand c.name (.text role) (.notFinite text))

/-- The size of a window, at least one. -/
def window (c : Calculation) (role : String) : Except StrategyError Int := do
  let o ← c.requiredOf role [.integer]
  match o.value.bind Decimal.integer? with
  | none => throw (.operand c.name (.text role) (.noInteger o.value))
  | some n =>
    if n < 1 then throw (.operand c.name (.text role) (.tooSmall n)) else return n

/-- The node of a calculation, with the positions of the names in the given order. -/
def compile (c : Calculation) (strategy : Doc) (order : List Scalar) (name : Scalar) :
    Except StrategyError Node := do
  match c.operation with
  | .query => return .query name (← c.field)
  | .scalar _ =>
    let source ← c.source strategy order "time_series"
    return .scalar name c.operation source (← c.number "scalar")
  | .series _ =>
    let left ← c.source strategy order "left"
    return .series name c.operation left (← c.source strategy order "right")
  | .sma =>
    let source ← c.source strategy order "time_series"
    return .sma name source (← c.window "window_size")

end Calculation

/-! ## Graph -/

/-- The node of a name of the plan.  Every name in the order has a calculation, since the order
consists of the names. -/
def Plan.node (p : Plan) (strategy : Doc) (name : Scalar) : Except StrategyError Node :=
  match p.named.lookup name with
  | some c => c.compile strategy p.order name
  | none => .error (.invalid strategy .unnamedCalculation)

/-- The graph of a plan. -/
def Plan.compile (p : Plan) (strategy : Doc) : Except StrategyError Graph := do
  return ⟨strategy, ← p.order.mapM (p.node strategy), p.order.idxOf p.score, p.edges⟩

/-- The graph of a strategy. -/
def Strategy.build (s : Strategy) (strict : Bool) : Except StrategyError Graph := do
  (← s.plan strict).compile s.name

/-- The record of parts that do not hang together. -/
def Looseness.record (l : Looseness) (strategy : Doc) : Record :=
  ⟨.warning, s!"Strategy '{strategy.asText}' has {l.count} connected components; " ++
    s!"orphan calculations {shownNames l.orphans}"⟩

/-- The record of a finished graph. -/
def Graph.record (g : Graph) : Record :=
  ⟨.info, s!"Built graph for strategy '{g.strategy.asText}': {g.length} nodes, " ++
    s!"{g.edges.length} edges"⟩

/-- The records of building the graph of a strategy. -/
def Strategy.buildRecords (s : Strategy) (strict : Bool) : List Record :=
  match s.plan strict with
  | .error _ => []
  | .ok p =>
    (p.looseness.map (·.record s.name)).toList ++
      match p.compile s.name with
      | .ok g => [g.record]
      | .error _ => []

end ScorePortfolio

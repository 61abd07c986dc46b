import ScorePortfolio.Proofs.Evaluation.Outputs
import ScorePortfolio.Proofs.Graph.WellFormed
import ScorePortfolio.Proofs.Series.Windows

/-!
# Failing passes

A pass over a built graph fails if and only if one of its nodes does after all nodes before it have
run, and it fails as that node does.  A query fails because the client does; a node that computes
fails because a divisor is zero or a window is too long.  What would tell of a defective graph, such
as a position without an output, never comes out: this is what the evaluation takes from the graph
without checking it.
-/

namespace ScorePortfolio

/-- The error tells of a defect of the graph, and not of the data. -/
def EvaluationError.IsDefect : EvaluationError → Prop
  | notComputed _ | noSuchPosition | foreignOperand | foreignNode | foreignOperation => True
  | assetNotFound _ | request .. | series _ => False

variable {α : Type}

/-! ## Requests and operations -/

/-- A request fails as the client does, which for an unknown asset is not wrapped. -/
theorem Request.send_eq_error {r : Request} {c : Client α} {e : EvaluationError} :
    r.send c = .error e ↔
      (∃ symbol, c.query r.asset r.asOf r.field = .error (.assetNotFound symbol) ∧
        e = .assetNotFound symbol) ∨
      ∃ cause, c.query r.asset r.asOf r.field = .error cause ∧
        (∀ symbol, cause ≠ .assetNotFound symbol) ∧ e = .request r cause := by
  rw [send]
  cases hq : c.query r.asset r.asOf r.field with
  | ok s => simp
  | error cause => cases cause <;> simp [eq_comm]

namespace Series

variable [Quantity α]

/-- With a scalar, only a division by zero fails. -/
theorem withScalar_eq_error {op : Arithmetic} {s : Series α} {k : α} {e : SeriesError} :
    s.withScalar op k = .error e ↔
      op = .div ∧ Quantity.eq k Quantity.zero = true ∧ e = .scalarZero := by
  cases op with
  | add | sub | mul => simp [withScalar]
  | div =>
    by_cases hk : Quantity.eq k Quantity.zero = true
    · simpa [withScalar, div, hk] using eq_comm
    · simp [withScalar, div, hk]

/-- With a series, only a division fails, and on the zeros that both series date. -/
theorem withSeries_eq_error {op : Arithmetic} {a b : Series α} {e : SeriesError} :
    a.withSeries op b = .error e ↔
      op = .div ∧ ∃ first y rest, sharedZeros a b = (first, y) :: rest ∧
        e = .alignedZeros (sharedZeros a b).length first := by
  cases op with
  | add | sub | mul => simp [withSeries]
  | div =>
    rw [withSeries, divSeries]
    cases sharedZeros a b with
    | nil => simp
    | cons p rest =>
      obtain ⟨first, y⟩ := p
      constructor
      · intro h
        exact ⟨rfl, first, y, rest, rfl, (Except.error.inj h).symm⟩
      · rintro ⟨-, _, _, _, heq, rfl⟩
        obtain ⟨hpoint, rfl⟩ := List.cons.inj heq
        obtain ⟨rfl, rfl⟩ := Prod.mk.inj hpoint
        rfl

theorem sma_eq_error {s : Series α} {w : Int} (hw : 1 ≤ w) {e : SeriesError} :
    s.sma w = .error e ↔ s.length < w ∧ e = .windowTooLong w s.length := by
  rw [sma_eq_error_iff]
  simp [hw, Int.not_lt.mpr hw]

end Series

/-! ## Nodes -/

namespace Node

/-- An earlier position has an output. -/
theorem exists_operand {nodes : List Node} {outputs : List (Series α)} {q : Int} (h : 0 ≤ q)
    (hlt : q < outputs.length) (hle : outputs.length ≤ nodes.length) :
    ∃ a, operand nodes outputs q = .ok a := by
  obtain ⟨i, rfl⟩ := Int.eq_ofNat_of_zero_le h
  have hi : i < outputs.length := Int.ofNat_lt.mp hlt
  refine ⟨outputs[i], operand_eq_ok.mpr ?_⟩
  rw [position?_natCast (Nat.lt_of_lt_of_le hi hle), Option.bind_some, List.getElem?_eq_getElem hi]

variable [Quantity α]

/-- The node fails with the error, given the outputs of the nodes before it. -/
inductive Fails (client : Client α) (asset : Asset) (t : Option Instant) (nodes : List Node)
    (outputs : List (Series α)) : Node → EvaluationError → Prop where
  | unknownAsset {name field symbol} :
      client.query asset t field = .error (.assetNotFound symbol) →
      Fails client asset t nodes outputs (.query name field) (.assetNotFound symbol)
  | request {name field cause} : client.query asset t field = .error cause →
      (∀ symbol, cause ≠ .assetNotFound symbol) →
      Fails client asset t nodes outputs (.query name field) (.request ⟨asset, t, field⟩ cause)
  | scalar {name q k a} : operand nodes outputs q = .ok a →
      Quantity.eq (Quantity.ofFloat k : α) Quantity.zero = true →
      Fails client asset t nodes outputs (.scalar name (.scalar .div) q k) (.series .scalarZero)
  | series {name q r a b first y rest} : operand nodes outputs q = .ok a →
      operand nodes outputs r = .ok b → a.sharedZeros b = (first, y) :: rest →
      Fails client asset t nodes outputs (.series name (.series .div) q r)
        (.series (.alignedZeros (a.sharedZeros b).length first))
  | sma {name q a} {w : Int} : operand nodes outputs q = .ok a → a.length < w →
      Fails client asset t nodes outputs (.sma name q w) (.series (.windowTooLong w a.length))

variable {client : Client α} {asset : Asset} {t : Option Instant} {nodes rest : List Node}
  {outputs : List (Series α)} {e : EvaluationError}

theorem Fails.not_isDefect {node : Node} (h : Fails client asset t nodes outputs node e) :
    ¬ e.IsDefect := by
  cases h <;> exact id

/-- A compiled node whose operands are there fails in these ways only. -/
theorem run_eq_error {c : Calculation} {order : List Scalar} {name : Scalar} {node : Node}
    (hnode : c.CompilesTo order name node)
    (hread : ∀ q ∈ node.reads, ∃ a, operand nodes outputs q = .ok a) :
    (node.run client asset t nodes outputs).result = .error e ↔
      Fails client asset t nodes outputs node e := by
  cases hnode with
  | @query f hop hf =>
    have hrun : ((query name f).run client asset t nodes outputs).result =
        Request.send ⟨asset, t, f⟩ client := by
      rw [run]
      cases Request.send ⟨asset, t, f⟩ client <;> rfl
    rw [hrun, Request.send_eq_error]
    constructor
    · rintro (⟨symbol, hq, rfl⟩ | ⟨cause, hq, hne, rfl⟩)
      · exact .unknownAsset hq
      · exact .request hq hne
    · rintro (hq | ⟨hq, hne⟩)
      · exact .inl ⟨_, hq, rfl⟩
      · exact .inr ⟨_, hq, hne, rfl⟩
  | @scalar op v x hop hv hmem hx =>
    obtain ⟨a, ha⟩ := hread (order.idxOf (.text v)) (List.mem_singleton_self _)
    simp only [run, hop, ha, ok_bind, mapError_eq_error, Series.withScalar_eq_error]
    constructor
    · rintro ⟨_, ⟨rfl, hk, rfl⟩, rfl⟩
      exact .scalar ha hk
    · rintro (_ | _ | ⟨-, hk⟩)
      exact ⟨_, ⟨rfl, hk, rfl⟩, rfl⟩
  | @series op v w hop hv hvmem hw hwmem =>
    obtain ⟨a, ha⟩ := hread (order.idxOf (.text v)) List.mem_cons_self
    obtain ⟨b, hb⟩ := hread (order.idxOf (.text w)) (List.mem_cons_of_mem _ List.mem_cons_self)
    simp only [run, hop, ha, hb, ok_bind, mapError_eq_error, Series.withSeries_eq_error]
    constructor
    · rintro ⟨_, ⟨rfl, first, y, rest, hzeros, rfl⟩, rfl⟩
      exact .series ha hb hzeros
    · rintro (_ | _ | _ | ⟨ha', hb', hzeros⟩)
      obtain rfl := Except.ok.inj (ha.symm.trans ha')
      obtain rfl := Except.ok.inj (hb.symm.trans hb')
      exact ⟨_, ⟨rfl, _, _, _, hzeros, rfl⟩, rfl⟩
  | @sma v w hop hv hmem hw =>
    obtain ⟨a, ha⟩ := hread (order.idxOf (.text v)) (List.mem_singleton_self _)
    obtain ⟨-, -, -, -, -, -, hpos⟩ := hw
    simp only [run, ha, ok_bind, mapError_eq_error, Series.sma_eq_error hpos]
    constructor
    · rintro ⟨_, ⟨hshort, rfl⟩, rfl⟩
      exact .sma ha hshort
    · rintro (_ | _ | _ | _ | ⟨ha', hshort⟩)
      obtain rfl := Except.ok.inj (ha.symm.trans ha')
      exact ⟨_, ⟨hshort, rfl⟩, rfl⟩

/-- A pass fails as the first of its nodes to fail. -/
theorem runAll_eq_error :
    (runAll client asset t nodes outputs rest).result = .error e ↔
      ∃ before node after found, rest = before ++ node :: after ∧
        (runAll client asset t nodes outputs before).result = .ok found ∧
        (node.run client asset t nodes found).result = .error e := by
  induction rest generalizing outputs with
  | nil => simp [runAll]
  | cons node rest ih =>
    cases hrun : (node.run client asset t nodes outputs).result with
    | error e' =>
      rw [(runAll_cons_of_error hrun).1]
      constructor
      · intro h
        obtain rfl := Except.error.inj h
        exact ⟨[], node, rest, outputs, rfl, rfl, hrun⟩
      · rintro ⟨before, node', after, found, heq, hfound, herror⟩
        cases before with
        | nil =>
          obtain ⟨rfl, -⟩ := List.cons.inj heq
          obtain rfl := Except.ok.inj hfound
          exact congrArg Except.error (Except.error.inj (hrun.symm.trans herror))
        | cons _ before =>
          obtain ⟨rfl, -⟩ := List.cons.inj heq
          cases (runAll_cons_of_error hrun).1.symm.trans hfound
    | ok x =>
      rw [(runAll_cons_of_ok hrun).1, ih]
      constructor
      · rintro ⟨before, node', after, found, rfl, hfound, herror⟩
        exact ⟨node :: before, node', after, found, rfl, (runAll_cons_of_ok hrun).1.trans hfound,
          herror⟩
      · rintro ⟨before, node', after, found, heq, hfound, herror⟩
        cases before with
        | nil =>
          obtain ⟨rfl, -⟩ := List.cons.inj heq
          obtain rfl := Except.ok.inj hfound
          cases hrun.symm.trans herror
        | cons _ before =>
          obtain ⟨rfl, rfl⟩ := List.cons.inj heq
          exact ⟨before, node', after, found, rfl, (runAll_cons_of_ok hrun).1.symm.trans hfound,
            herror⟩

end Node

/-! ## Built graphs -/

namespace Strategy

variable [Quantity α] {s : Strategy} {strict : Bool} {g : Graph} {client : Client α} {asset : Asset}
  {t : Option Instant} {e : EvaluationError}

/-- Once the nodes before it have run, a node of a built graph finds what it reads. -/
theorem BuiltFrom.run_eq_error {p : Plan} (h : s.BuiltFrom strict p g) {before after : List Node}
    {node : Node} (hnodes : g.nodes = before ++ node :: after) {found : List (Series α)}
    (hfound : (Node.runAll client asset t g.nodes [] before).result = .ok found) :
    (node.run client asset t g.nodes found).result = .error e ↔
      node.Fails client asset t g.nodes found e := by
  have hlen : found.length = before.length := by simpa using Node.length_of_runAll hfound
  have hat : g.nodes[before.length]? = some node := by simp [hnodes]
  obtain ⟨n, -, c, -, -, hcomp⟩ := h.node_at hat
  refine Node.run_eq_error hcomp fun q hq ↦ ?_
  obtain ⟨h₀, hlt, -⟩ := h.reads_earlier hat hcomp.name?_eq hq
  have hle : found.length ≤ g.nodes.length := by simp [hnodes, hlen]
  exact Node.exists_operand h₀ (hlen ▸ hlt) hle

/-- A pass over a built graph fails where its nodes fail: collecting the outputs does not. -/
theorem BuiltFrom.evaluate_eq_error {p : Plan} (h : s.BuiltFrom strict p g) :
    (g.evaluate client asset t).result = .error e ↔
      (Node.runAll client asset t g.nodes [] g.nodes).result = .error e := by
  cases hall : (Node.runAll client asset t g.nodes [] g.nodes).result with
  | ok all =>
    obtain ⟨x, -, hr⟩ := h.evaluate_of_runAll hall
    simp [hr]
  | error e' => simp [Graph.evaluate, hall, Except.bind]

/-- A pass over a built graph fails if and only if some node fails after those before it have run,
and as this node does.  It never fails because of the graph. -/
theorem build_evaluate_eq_error (h : s.build strict = .ok g) (client : Client α) (asset : Asset)
    (t : Option Instant) (e : EvaluationError) :
    ((g.evaluate client asset t).result = .error e ↔
      ∃ before node after found, g.nodes = before ++ node :: after ∧
        (Node.runAll client asset t g.nodes [] before).result = .ok found ∧
        node.Fails client asset t g.nodes found e) ∧
    ((g.evaluate client asset t).result = .error e → ¬ e.IsDefect) := by
  obtain ⟨p, hp⟩ := exists_plan h
  have hiff : (g.evaluate client asset t).result = .error e ↔
      ∃ before node after found, g.nodes = before ++ node :: after ∧
        (Node.runAll client asset t g.nodes [] before).result = .ok found ∧
        node.Fails client asset t g.nodes found e := by
    rw [hp.evaluate_eq_error, Node.runAll_eq_error]
    constructor
    · rintro ⟨before, node, after, found, hnodes, hfound, herror⟩
      exact ⟨before, node, after, found, hnodes, hfound,
        (hp.run_eq_error hnodes hfound).mp herror⟩
    · rintro ⟨before, node, after, found, hnodes, hfound, hfails⟩
      exact ⟨before, node, after, found, hnodes, hfound,
        (hp.run_eq_error hnodes hfound).mpr hfails⟩
  refine ⟨hiff, fun herror ↦ ?_⟩
  obtain ⟨_, _, _, _, -, -, hfails⟩ := hiff.mp herror
  exact hfails.not_isDefect

end Strategy

/-- Two prices are too few for the slow average, which runs right after the price. -/
theorem crossover_fails : crossover.build true = .ok crossoverGraph ∧
    (crossoverGraph.evaluate fourPrices ⟨"A"⟩ (some ⟨2⟩)).result =
      .error (.series (.windowTooLong 3 2)) ∧
    (∃ before node after found, crossoverGraph.nodes = before ++ node :: after ∧
      (Node.runAll fourPrices ⟨"A"⟩ (some ⟨2⟩) crossoverGraph.nodes [] before).result = .ok found ∧
      node.Fails fourPrices ⟨"A"⟩ (some ⟨2⟩) crossoverGraph.nodes found
        (.series (.windowTooLong 3 2))) ∧
    ¬ (EvaluationError.series (.windowTooLong 3 2)).IsDefect := by
  have hscore : (crossoverGraph.evaluate fourPrices ⟨"A"⟩ (some ⟨2⟩)).result.map (·.score) =
      .error (.series (.windowTooLong 3 2)) := by
    decide
  have herror : (crossoverGraph.evaluate fourPrices ⟨"A"⟩ (some ⟨2⟩)).result =
      .error (.series (.windowTooLong 3 2)) := by
    cases hr : (crossoverGraph.evaluate fourPrices ⟨"A"⟩ (some ⟨2⟩)).result with
    | ok r => cases hr ▸ hscore
    | error e => exact congrArg Except.error (Except.error.inj (hr ▸ hscore))
  obtain ⟨hiff, hdefect⟩ := Strategy.build_evaluate_eq_error crossover_build fourPrices ⟨"A"⟩
    (some ⟨2⟩) (.series (.windowTooLong 3 2))
  exact ⟨crossover_build, herror, hiff.mp herror, hdefect herror⟩

end ScorePortfolio

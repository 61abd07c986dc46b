import ScorePortfolio.Proofs.Evaluation.Arena
import ScorePortfolio.Proofs.Evaluation.Failure
import ScorePortfolio.Proofs.Evaluation.Meaning

/-!
# Requests of a pass

A pass runs each node once, in order, until one fails.  What it asks of the client shows this: one
request for each query that it has reached, however many calculations read the answer, and none
after the node that fails.
-/

namespace ScorePortfolio

variable {α : Type}

/-- The requests that were sent on the way. -/
def Outcome.requests {β : Type} (o : Outcome β) : List Request :=
  o.events.filterMap Event.request?

/-- The request of a calculation: a query asks for its field, and nothing else asks. -/
def Calculation.request? (asset : Asset) (t : Option Instant) (c : Calculation) : Option Request :=
  if c.operation = .query then some ⟨asset, t, c.literal? "field"⟩ else none

namespace Node

/-- The request of a node, if it sends one. -/
def request? (asset : Asset) (t : Option Instant) : Node → Option Request
  | query _ field => some ⟨asset, t, field⟩
  | scalar .. | series .. | sma .. | foreign => none

/-- A node asks for what its calculation does. -/
theorem request?_eq {c : Calculation} {order : List Scalar} {name : Scalar} {node : Node}
    (h : c.CompilesTo order name node) (asset : Asset) (t : Option Instant) :
    node.request? asset t = c.request? asset t := by
  rw [Calculation.request?]
  cases h with
  | query hop hf => rw [if_pos hop, hf.literal, request?]
  | scalar hop | series hop | sma hop =>
    rw [if_neg (by rw [hop]; exact Operation.noConfusion)]
    rfl

/-- The first of several nodes asks before the others. -/
theorem filterMap_request?_cons (asset : Asset) (t : Option Instant) (node : Node)
    (rest : List Node) : (node :: rest).filterMap (request? asset t) =
      (node.request? asset t).toList ++ rest.filterMap (request? asset t) := by
  rw [List.filterMap_cons]
  cases node.request? asset t with
  | none => rfl
  | some r => rfl

variable [Quantity α] {client : Client α} {asset : Asset} {t : Option Instant} {nodes : List Node}
  {outputs found : List (Series α)}

/-- A node sends the request it has, or none. -/
theorem requests_run (node : Node) :
    (node.run client asset t nodes outputs).requests = (node.request? asset t).toList := by
  cases node with
  | query name field =>
    rw [run, Outcome.requests]
    cases Request.send ⟨asset, t, field⟩ client with
    | ok x => rfl
    | error e => rfl
  | scalar | series | sma | foreign => rfl

/-- A node that has an output lets the pass go on. -/
theorem requests_runAll_cons {node : Node} {rest : List Node} {x : Series α}
    (h : (node.run client asset t nodes outputs).result = .ok x) :
    (runAll client asset t nodes outputs (node :: rest)).requests =
      (node.request? asset t).toList ++
        (runAll client asset t nodes (outputs ++ [x]) rest).requests := by
  have hthis : (node.run client asset t nodes outputs).requests = (node.request? asset t).toList :=
    requests_run node
  rw [← hthis]
  simp only [runAll, h, Outcome.requests, List.filterMap_append]

/-- A node that fails ends the pass, with its own request as the last. -/
theorem requests_runAll_cons_of_error {node : Node} {rest : List Node} {e : EvaluationError}
    (h : (node.run client asset t nodes outputs).result = .error e) :
    (runAll client asset t nodes outputs (node :: rest)).requests =
      (node.request? asset t).toList := by
  have hreport : (node.name?.map fun name ↦ Event.failed name asset t e).toList.filterMap
      Event.request? = [] := by
    cases node.name? with
    | none => rfl
    | some name => rfl
  have hthis : (node.run client asset t nodes outputs).requests = (node.request? asset t).toList :=
    requests_run node
  rw [← hthis]
  simp only [runAll, h, Outcome.requests, List.filterMap_append, hreport, List.append_nil]

/-- Nodes that run one after the other ask once each, before anything that comes after them. -/
theorem requests_runAll_append {before : List Node}
    (h : (runAll client asset t nodes outputs before).result = .ok found) (rest : List Node) :
    (runAll client asset t nodes outputs (before ++ rest)).requests =
      before.filterMap (request? asset t) ++
        (runAll client asset t nodes found rest).requests := by
  induction before generalizing outputs with
  | nil =>
    obtain rfl := Except.ok.inj h
    rfl
  | cons node before ih =>
    obtain ⟨x, hx, h⟩ := runAll_cons_eq_ok.mp h
    rw [List.cons_append, requests_runAll_cons (run_eq_ok.mpr hx), ih h, filterMap_request?_cons,
      List.append_assoc]

end Node

/-- The pass fails at the position: the nodes before it have run, and the one there fails. -/
def Graph.FailsAt [Quantity α] (g : Graph) (client : Client α) (asset : Asset) (t : Option Instant)
    (k : ℕ) (e : EvaluationError) : Prop :=
  ∃ node found, g.nodes[k]? = some node ∧
    (Node.runAll client asset t g.nodes [] (g.nodes.take k)).result = .ok found ∧
    (node.run client asset t g.nodes found).result = .error e

namespace Graph

variable [Quantity α] {g : Graph} {client : Client α} {asset : Asset} {t : Option Instant}

/-- A run fails with an error exactly if some node is the first to fail, and with it. -/
theorem exists_failsAt {e : EvaluationError} :
    (∃ k, g.FailsAt client asset t k e) ↔
      (Node.runAll client asset t g.nodes [] g.nodes).result = .error e := by
  rw [Node.runAll_eq_error]
  constructor
  · rintro ⟨k, node, found, hk, hfound, herror⟩
    obtain ⟨hlt, rfl⟩ := List.getElem?_eq_some_iff.mp hk
    refine ⟨g.nodes.take k, g.nodes[k], g.nodes.drop (k + 1), found, ?_, hfound, herror⟩
    rw [List.getElem_cons_drop, List.take_append_drop]
  · rintro ⟨before, node, after, found, hnodes, hfound, herror⟩
    refine ⟨before.length, node, found, ?_, ?_, herror⟩
    · rw [hnodes, List.getElem?_append_right le_rfl, Nat.sub_self, List.getElem?_cons_zero]
    · rw [hnodes, List.take_left, ← hnodes]
      exact hfound

/-- A pass that succeeds asks for every node. -/
theorem requests_of_ok {found : List (Series α)}
    (h : (Node.runAll client asset t g.nodes [] g.nodes).result = .ok found) :
    (g.evaluate client asset t).requests = g.nodes.filterMap (Node.request? asset t) := by
  have happ := Node.requests_runAll_append h []
  rw [List.append_nil] at happ
  exact happ.trans (List.append_nil _)

/-- A pass that fails asks for the nodes up to the one that fails. -/
theorem FailsAt.requests {k : ℕ} {e : EvaluationError} (h : g.FailsAt client asset t k e) :
    (g.evaluate client asset t).requests =
      (g.nodes.take (k + 1)).filterMap (Node.request? asset t) := by
  obtain ⟨node, found, hk, hfound, herror⟩ := h
  obtain ⟨hlt, rfl⟩ := List.getElem?_eq_some_iff.mp hk
  have happ := Node.requests_runAll_append hfound (g.nodes[k] :: g.nodes.drop (k + 1))
  rw [List.getElem_cons_drop, List.take_append_drop, ← List.getElem_cons_drop hlt,
    Node.requests_runAll_cons_of_error herror] at happ
  rw [List.take_add_one, hk, List.filterMap_append, Option.toList_some,
    Node.filterMap_request?_cons, List.filterMap_nil, List.append_nil]
  exact happ

end Graph

namespace Strategy

variable {s : Strategy} {strict : Bool} {g : Graph}

/-- The calculations that nodes are compiled from, one for each node. -/
theorem exists_calculations {order names : List Scalar} {nodes : List Node}
    (h : List.Forall₂ (fun name node ↦ ∃ c ∈ s.calculations, c.name = .scalar name ∧
      c.CompilesTo order name node) names nodes) :
    ∃ cs : List Calculation, cs ⊆ s.calculations ∧ cs.map (·.name) = names.map Doc.scalar ∧
      List.Forall₂ (fun c node ↦ ∃ name, c.CompilesTo order name node) cs nodes := by
  induction h with
  | nil => exact ⟨[], List.nil_subset _, rfl, .nil⟩
  | cons hnode _ ih =>
    obtain ⟨c, hc, hname, hcomp⟩ := hnode
    obtain ⟨cs, hsub, hnames, hcs⟩ := ih
    refine ⟨c :: cs, List.cons_subset.mpr ⟨hc, hsub⟩, ?_, .cons ⟨_, hcomp⟩ hcs⟩
    rw [List.map_cons, List.map_cons, hname, hnames]

/-- The calculations in the order of the nodes: each comes once, and compiles to its node. -/
theorem BuiltFrom.exists_ordered {p : Plan} (h : s.BuiltFrom strict p g) :
    ∃ ordered : List Calculation, ordered.Perm s.calculations ∧
      ordered.map (·.name) = g.executionOrder.map Doc.scalar ∧
      List.Forall₂ (fun c node ↦ ∃ name, c.CompilesTo p.order name node) ordered g.nodes := by
  obtain ⟨ordered, hsub, hnames, hcomp⟩ := exists_calculations h.nodes
  have hnodup : (ordered.map (·.name)).Nodup := by
    rw [hnames]
    exact h.plan.order_nodup.map fun _ _ heq ↦ Doc.scalar.inj heq
  have hlen : s.calculations.length ≤ ordered.length := by
    rw [← List.length_map (·.name), ← h.names_perm.length_eq, ← hnames, List.length_map]
  have hsubperm := List.subperm_of_subset (List.Nodup.of_map _ hnodup) hsub
  exact ⟨ordered, hsubperm.perm_of_length_le hlen, h.executionOrder_eq ▸ hnames, hcomp⟩

/-- Nodes ask for what their calculations do, one after the other. -/
theorem filterMap_request? {order : List Scalar} {cs : List Calculation} {nodes : List Node}
    (h : List.Forall₂ (fun c node ↦ ∃ name, c.CompilesTo order name node) cs nodes)
    (asset : Asset) (t : Option Instant) :
    nodes.filterMap (Node.request? asset t) = cs.filterMap (Calculation.request? asset t) := by
  induction h with
  | nil => rfl
  | cons hnode _ ih =>
    obtain ⟨name, hcomp⟩ := hnode
    rw [List.filterMap_cons, List.filterMap_cons, Node.request?_eq hcomp, ih]

/-- The calculations of a built graph can be put in the order of its execution, so that every pass
asks as they stand.  A pass that succeeds asks once for each query, for its field, its asset and its
moment; a pass that fails does so at some position, asks for the queries up to there, and gives
nothing but the error.  It leaves nothing behind that a later pass would see: even in an arena where
earlier passes have left their outputs, each pass is what it would be by itself. -/
theorem build_evaluate_requests (h : s.build strict = .ok g) {α : Type} [Quantity α] :
    ∃ ordered : List Calculation, ordered.Perm s.calculations ∧
      ordered.map (·.name) = g.executionOrder.map Doc.scalar ∧
      ∀ client : Client α,
        (∀ asset t,
          (∀ r, (g.evaluate client asset t).result = .ok r →
            (g.evaluate client asset t).requests =
              ordered.filterMap (Calculation.request? asset t)) ∧
          (∀ e, (g.evaluate client asset t).result = .error e ↔
            ∃ k, g.FailsAt client asset t k e) ∧
          ∀ k e, g.FailsAt client asset t k e →
            (g.evaluate client asset t).requests =
              (ordered.take (k + 1)).filterMap (Calculation.request? asset t)) ∧
        ∀ arena passes, g.evaluateOver client arena passes =
          passes.map fun (asset, t) ↦ g.evaluate client asset t := by
  obtain ⟨p, hp⟩ := exists_plan h
  obtain ⟨ordered, hperm, hnames, hcomp⟩ := hp.exists_ordered
  refine ⟨ordered, hperm, hnames, fun client ↦ ⟨fun asset t ↦ ⟨?_, ?_, ?_⟩, ?_⟩⟩
  · intro r hr
    cases hall : (Node.runAll client asset t g.nodes [] g.nodes).result with
    | ok found => rw [Graph.requests_of_ok hall, filterMap_request? hcomp]
    | error e => cases hr.symm.trans (hp.evaluate_eq_error.mpr hall)
  · intro e
    rw [hp.evaluate_eq_error, Graph.exists_failsAt]
  · intro k e hfails
    rw [hfails.requests, filterMap_request? (List.forall₂_take (k + 1) hcomp)]
  · intro arena passes
    exact hp.evaluateOver_eq client arena passes

end Strategy

/-- Two averages read the price, which is asked for once.  With two prices the slow average ends the
pass, and the next pass over the same arena is none the worse for it. -/
theorem crossover_requests : crossover.build true = .ok crossoverGraph ∧
    ∃ ordered : List Calculation, ordered.Perm crossover.calculations ∧
      ordered.map (·.name) = crossoverGraph.executionOrder.map Doc.scalar ∧
      (crossoverGraph.evaluate fourPrices ⟨"A"⟩ (some ⟨4⟩)).result.isOk = true ∧
      (crossoverGraph.evaluate fourPrices ⟨"A"⟩ (some ⟨4⟩)).requests =
        ordered.filterMap (Calculation.request? ⟨"A"⟩ (some ⟨4⟩)) ∧
      (∃ k, crossoverGraph.FailsAt fourPrices ⟨"A"⟩ (some ⟨2⟩) k (.series (.windowTooLong 3 2)) ∧
        (crossoverGraph.evaluate fourPrices ⟨"A"⟩ (some ⟨2⟩)).requests =
          (ordered.take (k + 1)).filterMap (Calculation.request? ⟨"A"⟩ (some ⟨2⟩))) ∧
      crossoverGraph.evaluateOver fourPrices [] [(⟨"A"⟩, some ⟨2⟩), (⟨"A"⟩, some ⟨4⟩)] =
        [crossoverGraph.evaluate fourPrices ⟨"A"⟩ (some ⟨2⟩),
          crossoverGraph.evaluate fourPrices ⟨"A"⟩ (some ⟨4⟩)] := by
  obtain ⟨r, hr, -⟩ := exists_crossover
  have herror : (crossoverGraph.evaluate fourPrices ⟨"A"⟩ (some ⟨2⟩)).result =
      .error (.series (.windowTooLong 3 2)) := by
    have hscore : (crossoverGraph.evaluate fourPrices ⟨"A"⟩ (some ⟨2⟩)).result.map (·.score) =
        .error (.series (.windowTooLong 3 2)) := by
      decide
    cases hr : (crossoverGraph.evaluate fourPrices ⟨"A"⟩ (some ⟨2⟩)).result with
    | ok r => cases hr ▸ hscore
    | error e => exact congrArg Except.error (Except.error.inj (hr ▸ hscore))
  obtain ⟨ordered, hperm, hnames, hpasses⟩ :=
    Strategy.build_evaluate_requests crossover_build (α := Rat)
  obtain ⟨hpass, harena⟩ := hpasses fourPrices
  obtain ⟨-, hiff, hfails⟩ := hpass ⟨"A"⟩ (some ⟨2⟩)
  obtain ⟨k, hk⟩ := (hiff _).mp herror
  refine ⟨crossover_build, ordered, hperm, hnames, ?_, ?_, ⟨k, hk, hfails k _ hk⟩, harena [] _⟩
  · rw [hr]
    rfl
  · exact (hpass ⟨"A"⟩ (some ⟨4⟩)).1 r hr

end ScorePortfolio

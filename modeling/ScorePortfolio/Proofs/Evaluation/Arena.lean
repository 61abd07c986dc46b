import ScorePortfolio.Proofs.Evaluation.Pass
import ScorePortfolio.Proofs.Graph.WellFormed

/-!
# Passes in an arena that is not cleared

A pass starts with no outputs.  Here it starts instead in an arena where outputs of earlier passes
are still lying about, for other assets and other moments, and each node overwrites the slot of its
position.  Since a node of a built graph reads only earlier positions, which the pass itself has
written by then, it never sees what was left there: a pass does nothing to the next one.
-/

namespace ScorePortfolio

variable {α : Type}

namespace Node

/-- Below the end of the outputs, a position is read as if nothing were lying behind them. -/
theorem operand_append {nodes : List Node} {outputs stale : List (Series α)} {q : ℤ} (h : 0 ≤ q)
    (hlt : q < outputs.length) :
    operand nodes (outputs ++ stale) q = operand nodes outputs q := by
  rw [operand, operand, position?]
  by_cases hq : 0 ≤ q ∧ q < nodes.length
  · have hi : q.toNat < outputs.length := by omega
    simp only [if_pos hq, List.getElem?_append_left hi]
  · have hneg : ¬ (q < 0 ∧ -q ≤ nodes.length) := fun hq' ↦ Int.not_lt.mpr h hq'.1
    simp only [if_neg hq, if_neg hneg]

variable [Quantity α] (client : Client α) (asset : Asset) (t : Option Instant) (nodes : List Node)

/-- A run of nodes in an arena that holds `stale` outputs behind those of the run.  A node reads the
arena as it stands, and its output takes the place of the first stale one.  Beside the outcome there
is the arena that the run leaves. -/
def runOver (outputs stale : List (Series α)) :
    List Node → Outcome (List (Series α)) × List (Series α)
  | [] => (⟨[], .ok outputs⟩, outputs ++ stale)
  | node :: rest =>
    let this := node.run client asset t nodes (outputs ++ stale)
    match this.result with
    | .ok x =>
      let (others, arena) := runOver (outputs ++ [x]) stale.tail rest
      (⟨this.events ++ others.events, others.result⟩, arena)
    | .error e =>
      (⟨this.events ++ (node.name?.map fun name ↦ .failed name asset t e).toList, .error e⟩,
        outputs ++ stale)

variable {client asset t nodes} {outputs stale : List (Series α)}

/-- A node that reads only computed outputs runs alike whatever stands behind them. -/
theorem run_append {node : Node} (h : ∀ q ∈ node.reads, 0 ≤ q ∧ q < outputs.length) :
    node.run client asset t nodes (outputs ++ stale) = node.run client asset t nodes outputs := by
  have hoperand {q : ℤ} (hq : q ∈ node.reads) :
      operand nodes (outputs ++ stale) q = operand nodes outputs q :=
    operand_append (h q hq).1 (h q hq).2
  cases node with
  | query | foreign => rfl
  | scalar name op q k => simp only [run, hoperand (List.mem_singleton_self q)]
  | series name op q r =>
    simp only [run, hoperand (q := q) List.mem_cons_self,
      hoperand (List.mem_cons_of_mem q (List.mem_singleton_self r))]
  | sma name q w => simp only [run, hoperand (List.mem_singleton_self q)]

/-- Nodes that read earlier positions run as if the arena had been cleared. -/
theorem fst_runOver (h : ∀ (i : ℕ) node, nodes[i]? = some node → ∀ q ∈ node.reads, 0 ≤ q ∧ q < i)
    {before rest : List Node} (hnodes : nodes = before ++ rest)
    (hlen : outputs.length = before.length) :
    (runOver client asset t nodes outputs stale rest).1 =
      runAll client asset t nodes outputs rest := by
  induction rest generalizing before outputs stale with
  | nil => rfl
  | cons node rest ih =>
    have hat : nodes[outputs.length]? = some node := by simp [hnodes, hlen]
    have hrest (x : Series α) : (runOver client asset t nodes (outputs ++ [x]) stale.tail rest).1 =
        runAll client asset t nodes (outputs ++ [x]) rest := by
      have hnodes' : nodes = (before ++ [node]) ++ rest := by
        rw [hnodes, List.append_assoc]
        rfl
      have hlen' : (outputs ++ [x]).length = (before ++ [node]).length := by
        rw [List.length_append, List.length_append, hlen]
        rfl
      exact ih hnodes' hlen'
    rw [runOver, runAll, run_append (h _ _ hat)]
    cases (node.run client asset t nodes outputs).result with
    | error e => rfl
    | ok x => simp only [hrest]

end Node

namespace Graph

/-- Passes over a graph one after the other, in one arena that is never cleared. -/
def evaluateOver [Quantity α] (g : Graph) (client : Client α) (arena : List (Series α)) :
    List (Asset × Option Instant) → List (Outcome (AssetScore α))
  | [] => []
  | (asset, t) :: rest =>
    let (pass, arena) := Node.runOver client asset t g.nodes [] arena g.nodes
    ⟨pass.events, pass.result.bind (g.collect asset t)⟩ :: g.evaluateOver client arena rest

end Graph

/-- Whatever passes have run before, and however they have ended, a pass over a built graph is the
same as in an arena of its own. -/
theorem Strategy.BuiltFrom.evaluateOver_eq [Quantity α] {s : Strategy} {strict : Bool} {p : Plan}
    {g : Graph} (h : s.BuiltFrom strict p g) (client : Client α) (arena : List (Series α))
    (passes : List (Asset × Option Instant)) :
    g.evaluateOver client arena passes =
      passes.map fun (asset, t) ↦ g.evaluate client asset t := by
  have hreads (i : ℕ) (node : Node) (hi : g.nodes[i]? = some node) (q : ℤ) (hq : q ∈ node.reads) :
      0 ≤ q ∧ q < i := by
    obtain ⟨n, -, c, -, -, hnode⟩ := h.node_at hi
    obtain ⟨h₀, hlt, -⟩ := h.reads_earlier hi hnode.name?_eq hq
    exact ⟨h₀, hlt⟩
  induction passes generalizing arena with
  | nil => rfl
  | cons pass rest ih =>
    obtain ⟨asset, t⟩ := pass
    have hfirst : (Node.runOver client asset t g.nodes [] arena g.nodes).1 =
        Node.runAll client asset t g.nodes [] g.nodes :=
      Node.fst_runOver hreads (List.nil_append _).symm rfl
    show _ :: g.evaluateOver client (Node.runOver client asset t g.nodes [] arena g.nodes).2 rest = _
    rw [ih, hfirst]
    rfl

end ScorePortfolio

import ScorePortfolio.Proofs.Graph.Built

/-!
# Built graphs are well formed

A graph that is built from a strategy represents it: its nodes are named like the calculations, it
reads earlier nodes only, along its edges, and its edges are the dependencies of the strategy.  An
evaluation relies on this and checks none of it.
-/

namespace ScorePortfolio

/-- The numbers of a node are in range: a window holds a point, and a scalar is finite. -/
def Node.HasNumbers : Node → Prop
  | .scalar _ _ _ x => x.isFinite = true
  | .sma _ _ window => 1 ≤ window
  | _ => True

/-- What a graph is to the strategy that it represents. -/
structure Graph.Represents (g : Graph) (s : Strategy) : Prop where
  /-- The execution order lists the names of the calculations, each once. -/
  order_perm : (g.executionOrder.map Doc.scalar).Perm (s.calculations.map (·.name))
  order_nodup : (g.executionOrder.map Scalar.key).Nodup
  /-- The name of each node has its position, and no other name has one. -/
  positions_iff : ∀ n i, (n, i) ∈ g.positions ↔ (g.nodes[i]?).bind Node.name? = some n
  positions_nodup : (g.positions.map (·.1)).Nodup
  /-- Every node has a name. -/
  named : ∀ node ∈ g.nodes, ∃ n, node.name? = some n
  /-- The node at the position of the score has the name of the score. -/
  score : ∃ n, g.scoreName? = some n ∧ (Doc.scalar n).same s.score = true
  /-- A node reads earlier nodes, each along an edge. -/
  reads : ∀ (i : Nat) (node : Node) (n : Scalar), g.nodes[i]? = some node → node.name? = some n →
    ∀ q : Int, q ∈ node.reads → 0 ≤ q ∧ q < i ∧
      ∃ m, (g.nodes[q.toNat]?).bind Node.name? = some m ∧ (m, n) ∈ g.edges
  numbers : ∀ node ∈ g.nodes, node.HasNumbers
  /-- The edges are the dependencies of the strategy, each once. -/
  edges_nodup : g.edges.Nodup
  edges_iff : ∀ a b, (a, b) ∈ g.edges ↔ s.Depends a b
  /-- Every edge leads forward. -/
  edges_forward : ∀ a b, (a, b) ∈ g.edges →
    ∃ i j : Nat, i < j ∧ g.executionOrder[i]? = some a ∧ g.executionOrder[j]? = some b

/-- The numbers of a compiled node are finite, and its windows are at least one. -/
theorem Calculation.CompilesTo.hasNumbers {c : Calculation} {order : List Scalar} {name : Scalar}
    {node : Node} (h : c.CompilesTo order name node) : node.HasNumbers := by
  cases h with
  | query _ _ => trivial
  | scalar _ _ _ hx =>
    obtain ⟨_, _, -, -, -, -, hfin⟩ := hx
    exact hfin
  | series _ _ _ _ _ => trivial
  | sma _ _ _ hn =>
    obtain ⟨_, _, -, -, -, -, hpos⟩ := hn
    exact hpos

namespace Strategy.BuiltFrom

variable {s : Strategy} {strict : Bool} {p : Plan} {g : Graph}

/-- The name at a position. -/
theorem name_at (h : s.BuiltFrom strict p g) {i : Nat} :
    (g.nodes[i]?).bind Node.name? = p.order[i]? := by
  cases hi : g.nodes[i]? with
  | none =>
    rw [List.getElem?_eq_none_iff, h.length_nodes] at hi
    simp [hi]
  | some node =>
    obtain ⟨n, hn, c, -, -, hc⟩ := h.node_at hi
    rw [Option.bind_some, hc.name?_eq, hn]

theorem mem_edges (h : s.BuiltFrom strict p g) {a b : Scalar} :
    (a, b) ∈ g.edges ↔ s.Depends a b := by
  rw [h.edges]
  exact Strategy.mem_edges h.plan.named h.plan.edges

theorem positions_iff (h : s.BuiltFrom strict p g) {n : Scalar} {i : Nat} :
    (n, i) ∈ g.positions ↔ (g.nodes[i]?).bind Node.name? = some n := by
  rw [h.name_at, Graph.positions, h.executionOrder_eq, List.mem_zipIdx_iff_getElem?]

theorem positions_nodup (h : s.BuiltFrom strict p g) : (g.positions.map (·.1)).Nodup := by
  rw [Graph.positions, List.zipIdx_map_fst, h.executionOrder_eq]
  exact h.plan.order_nodup

/-- A node reads at the positions of names that its own name depends on. -/
theorem reads_earlier (h : s.BuiltFrom strict p g) {i : Nat} {node : Node} {n : Scalar}
    (hi : g.nodes[i]? = some node) (hn : node.name? = some n) {q : Int} (hq : q ∈ node.reads) :
    0 ≤ q ∧ q < i ∧ ∃ m, (g.nodes[q.toNat]?).bind Node.name? = some m ∧ (m, n) ∈ g.edges := by
  obtain ⟨n', hn', c, hc, hname, hnode⟩ := h.node_at hi
  obtain rfl : n = n' := Option.some.inj (hn.symm.trans hnode.name?_eq)
  obtain ⟨v, hv, hmem, rfl⟩ := hnode.mem_reads hq
  have hdep : s.Depends (.text v) n := h.plan.depends hc hname hv hmem
  have hlt := h.plan.forward hdep
  rw [h.plan.idxOf_eq hn'] at hlt
  refine ⟨by omega, by omega, .text v, ?_, h.mem_edges.mpr hdep⟩
  rw [h.name_at, Int.toNat_natCast, List.getElem?_idxOf hmem]

/-- Edges run forward in the order of execution. -/
theorem edges_forward (h : s.BuiltFrom strict p g) {a b : Scalar} (hab : (a, b) ∈ g.edges) :
    ∃ i j : Nat, i < j ∧ g.executionOrder[i]? = some a ∧ g.executionOrder[j]? = some b := by
  have hdep := h.mem_edges.mp hab
  have ha : a ∈ p.order := h.plan.hasName_iff.mp hdep.1
  have hb : b ∈ p.order := by
    obtain ⟨-, c, hc, hname, -⟩ := hdep
    exact h.plan.hasName_iff.mp ⟨c, hc, hname⟩
  rw [h.executionOrder_eq]
  exact ⟨_, _, h.plan.forward hdep, List.getElem?_idxOf ha, List.getElem?_idxOf hb⟩

/-- Every node is that of a calculation. -/
theorem exists_compilesTo (h : s.BuiltFrom strict p g) {node : Node} (hnode : node ∈ g.nodes) :
    ∃ n, ∃ c ∈ s.calculations, c.CompilesTo p.order n node := by
  obtain ⟨i, hi⟩ := List.mem_iff_getElem?.mp hnode
  obtain ⟨n, -, c, hc, -, hcomp⟩ := h.node_at hi
  exact ⟨n, c, hc, hcomp⟩

/-- A built graph represents its strategy in every respect. -/
theorem represents (h : s.BuiltFrom strict p g) : g.Represents s where
  order_perm := h.executionOrder_eq ▸ h.names_perm
  order_nodup := h.executionOrder_eq ▸ h.plan.order_keys_nodup
  positions_iff _ _ := h.positions_iff
  positions_nodup := h.positions_nodup
  named _ hnode := by
    obtain ⟨n, c, -, hcomp⟩ := h.exists_compilesTo hnode
    exact ⟨n, hcomp.name?_eq⟩
  score := ⟨p.score, h.scoreName?_eq, (scoreIn?_eq_some h.plan.score).2⟩
  reads _ _ _ hi hn _ hq := h.reads_earlier hi hn hq
  numbers _ hnode := by
    obtain ⟨n, c, -, hcomp⟩ := h.exists_compilesTo hnode
    exact hcomp.hasNumbers
  edges_nodup := by
    rw [h.edges]
    exact collectEdges_nodup h.plan.edges
  edges_iff _ _ := h.mem_edges
  edges_forward _ _ hab := h.edges_forward hab

end Strategy.BuiltFrom

/-- Every built graph represents its strategy. -/
theorem Strategy.build_represents {s : Strategy} {strict : Bool} {g : Graph}
    (h : s.build strict = .ok g) : g.Represents s := by
  obtain ⟨p, hp⟩ := exists_plan h
  exact hp.represents

theorem crossoverGraph_represents :
    crossover.build true = .ok crossoverGraph ∧ crossoverGraph.Represents crossover :=
  ⟨crossover_build, Strategy.build_represents crossover_build⟩

end ScorePortfolio

import ScorePortfolio.Proofs.Strategy.Operands
import ScorePortfolio.Proofs.Strategy.Plan

/-!
# Graphs of strategies

A built graph comes from a plan: its nodes are those of the calculations, in the order of the plan.
The order lists the names of the strategy, each once, and every dependency leads forward in it.
-/

namespace ScorePortfolio

namespace Strategy

/-- What holds of a graph that is built from a plan of the strategy. -/
structure BuiltFrom (s : Strategy) (strict : Bool) (p : Plan) (g : Graph) : Prop where
  plan : s.Planned strict p
  nodes : List.Forall₂ (fun name node ↦ ∃ c ∈ s.calculations, c.name = .scalar name ∧
    c.CompilesTo p.order name node) p.order g.nodes
  scorePosition : g.scorePosition = p.order.idxOf p.score
  edges : g.edges = p.edges

theorem Planned.mem_named {s : Strategy} {strict : Bool} {p : Plan} (h : s.Planned strict p)
    {n : Scalar} {c : Calculation} (hc : p.named.lookup n = some c) :
    c ∈ s.calculations ∧ c.name = .scalar n := by
  obtain ⟨before, after, heq, -⟩ := List.lookup_eq_some_iff.mp hc
  exact (Strategy.mem_named h.named).mp (by simp [heq])

/-- Every graph is built from a plan. -/
theorem exists_plan {s : Strategy} {strict : Bool} {g : Graph} (h : s.build strict = .ok g) :
    ∃ p, s.BuiltFrom strict p g := by
  obtain ⟨p, hp, h⟩ := bind_eq_ok.mp h
  obtain ⟨nodes, hnodes, h⟩ := bind_eq_ok.mp h
  obtain rfl := pure_eq_ok.mp h
  have hplan := planned_of_plan hp
  refine ⟨p, hplan, (mapM_eq_ok.mp hnodes).imp fun name node hnode ↦ ?_, rfl, rfl⟩
  rw [Plan.node] at hnode
  split at hnode
  · next c hc =>
    obtain ⟨hmem, hname⟩ := hplan.mem_named hc
    exact ⟨c, hmem, hname, Calculation.compile_eq_ok.mp hnode⟩
  · cases hnode

/-! ## The order of a plan -/

/-- Two names that are the same as one value have one key. -/
theorem key_eq_of_same {a b : Scalar} {doc : Doc} (ha : (Doc.scalar a).same doc = true)
    (hb : (Doc.scalar b).same doc = true) : a.key = b.key := by
  cases doc with
  | scalar m => exact (same_iff.mp ha).trans (same_iff.mp hb).symm
  | list | map => cases ha

namespace Planned

variable {s : Strategy} {strict : Bool} {p : Plan}

theorem wellFormed (h : s.Planned strict p) : p.digraph.WellFormed :=
  digraph_wellFormed h.distinct h.edges rfl

theorem adj (h : s.Planned strict p) : p.digraph.Adj = s.Depends :=
  digraph_adj h.named h.edges rfl

theorem order_perm (h : s.Planned strict p) : p.order.Perm (p.named.map (·.1)) :=
  h.order ▸ Digraph.order_perm h.wellFormed h.acyclic

theorem order_nodup (h : s.Planned strict p) : p.order.Nodup :=
  h.order ▸ Digraph.order_nodup h.wellFormed

theorem order_keys_nodup (h : s.Planned strict p) : (p.order.map Scalar.key).Nodup := by
  have hkeys : p.named.map (·.1.key) = (p.named.map (·.1)).map Scalar.key := by simp
  exact (h.order_perm.map Scalar.key).nodup_iff.mpr (hkeys ▸ h.distinct)

theorem hasName_iff (h : s.Planned strict p) {n : Scalar} : s.HasName n ↔ n ∈ p.order := by
  rw [Strategy.hasName_iff h.named, h.order_perm.mem_iff]

/-- A dependency leads forward. -/
theorem forward (h : s.Planned strict p) {a b : Scalar} (hab : s.Depends a b) :
    p.order.idxOf a < p.order.idxOf b := by
  have hb : b ∈ p.order := by
    obtain ⟨-, c, hc, hname, -⟩ := hab
    exact h.hasName_iff.mp ⟨c, hc, hname⟩
  rw [h.order] at hb ⊢
  exact (Digraph.order_forward h.wellFormed (h.adj ▸ hab) hb).2

/-- What an operand of a calculation refers to, the calculation depends on. -/
theorem depends (h : s.Planned strict p) {c : Calculation} (hc : c ∈ s.calculations) {n : Scalar}
    (hn : c.name = .scalar n) {v : String} (hv : ∃ o ∈ c.operands, o.RefersTo v)
    (hmem : .text v ∈ p.order) : s.Depends (.text v) n := by
  obtain ⟨o, ho, hv⟩ := hv
  exact ⟨h.hasName_iff.mpr hmem, c, hc, hn, o, ho, v, hv, rfl⟩

theorem score_mem (h : s.Planned strict p) : p.score ∈ p.order :=
  h.order_perm.mem_iff.mpr (scoreIn?_eq_some h.score).1

/-- The score is the one name that equals it. -/
theorem eq_score (h : s.Planned strict p) {n : Scalar} (hn : s.HasName n)
    (hsame : (Doc.scalar n).same s.score = true) : n = p.score := by
  have hkey := key_eq_of_same hsame (scoreIn?_eq_some h.score).2
  exact List.inj_on_of_nodup_map h.order_keys_nodup (h.hasName_iff.mp hn) h.score_mem hkey

theorem idxOf_eq (h : s.Planned strict p) {n : Scalar} {i : Nat} (hi : p.order[i]? = some n) :
    p.order.idxOf n = i := by
  obtain ⟨hlt, rfl⟩ := List.getElem?_eq_some_iff.mp hi
  exact h.order_nodup.idxOf_getElem i hlt

/-- Calculations are told apart by their names. -/
theorem calculation_unique (h : s.Planned strict p) {c c' : Calculation} {n : Scalar}
    (hc : c ∈ s.calculations) (hc' : c' ∈ s.calculations) (hn : c.name = .scalar n)
    (hn' : c'.name = .scalar n) : c = c' := by
  have hmem := (Strategy.mem_named h.named).mpr ⟨hc, hn⟩
  have hmem' := (Strategy.mem_named h.named).mpr ⟨hc', hn'⟩
  have hinj := List.inj_on_of_nodup_map h.distinct hmem hmem' rfl
  exact congrArg Prod.snd hinj

end Planned

/-! ## Nodes by position -/

namespace BuiltFrom

variable {s : Strategy} {strict : Bool} {p : Plan} {g : Graph}

theorem length_nodes (h : s.BuiltFrom strict p g) : g.nodes.length = p.order.length :=
  h.nodes.length_eq.symm

/-- The order of execution lists the names of the calculations, each once. -/
theorem names_perm (h : s.BuiltFrom strict p g) :
    (p.order.map Doc.scalar).Perm (s.calculations.map (·.name)) := by
  obtain ⟨hcalcs, hnames⟩ := named_eq_ok.mp h.plan.named
  have heq : s.calculations.map (·.name) = (p.named.map (·.1)).map Doc.scalar := by
    rw [hcalcs, List.map_map, List.map_map]
    exact List.map_congr_left hnames
  exact heq ▸ h.plan.order_perm.map _

/-- The node at a position is that of the calculation whose name has the position. -/
theorem node_at (h : s.BuiltFrom strict p g) {i : Nat} {node : Node}
    (hi : g.nodes[i]? = some node) :
    ∃ n, p.order[i]? = some n ∧ ∃ c ∈ s.calculations, c.name = .scalar n ∧
      c.CompilesTo p.order n node := by
  obtain ⟨hlt, rfl⟩ := List.getElem?_eq_some_iff.mp hi
  have hlt' : i < p.order.length := h.length_nodes ▸ hlt
  exact ⟨p.order[i], List.getElem?_eq_getElem hlt', h.nodes.get hlt' hlt⟩

/-- Names stand in the graph as they do in the order. -/
theorem executionOrder_eq (h : s.BuiltFrom strict p g) : g.executionOrder = p.order := by
  have hnames : List.Forall₂ (fun name node ↦ Node.name? node = some name) p.order g.nodes :=
    h.nodes.imp fun _ _ ⟨_, _, _, hc⟩ ↦ hc.name?_eq
  rw [Graph.executionOrder]
  generalize p.order = names, g.nodes = nodes at hnames
  induction hnames with
  | nil => rfl
  | cons hname _ ih => rw [List.filterMap_cons_some hname, ih]

/-- The position of the score is that of its name. -/
theorem scoreName?_eq (h : s.BuiltFrom strict p g) : g.scoreName? = some p.score := by
  have hlt := List.idxOf_lt_length_of_mem h.plan.score_mem
  have hpos : position? g.length g.scorePosition = some (p.order.idxOf p.score) := by
    rw [h.scorePosition, Graph.length, h.length_nodes, position?, if_pos ⟨by simp, by omega⟩]
    rfl
  have hnode := List.getElem?_eq_getElem (h.length_nodes ▸ hlt)
  obtain ⟨n, hn, c, -, -, hc⟩ := h.node_at hnode
  rw [Graph.scoreName?, hpos, Option.bind_some, hnode, Option.bind_some, hc.name?_eq, ← hn,
    List.getElem?_eq_getElem hlt, List.getElem_idxOf]

end BuiltFrom

end Strategy

/-! ## A strategy with its graph -/

/-- The spread of a fast and a slow average of a price, in units of the fast one.  A calculation
comes before those that it reads. -/
def crossover : Strategy where
  name := .text "crossover"
  score := .text "gap"
  calculations := [
    ⟨.text "gap", .series .div,
      [⟨.text "right", .reference, some "fast"⟩, ⟨.text "left", .reference, some "spread"⟩]⟩,
    ⟨.text "spread", .series .sub,
      [⟨.text "left", .reference, some "fast"⟩, ⟨.text "right", .reference, some "slow"⟩]⟩,
    ⟨.text "slow", .sma,
      [⟨.text "time_series", .reference, some "price"⟩, ⟨.text "window_size", .integer, some "3"⟩]⟩,
    ⟨.text "fast", .sma,
      [⟨.text "time_series", .reference, some "price"⟩, ⟨.text "window_size", .integer, some "2"⟩]⟩,
    ⟨.text "price", .query, [⟨.text "field", .text, some "close"⟩]⟩]

/-- The graph of the crossover. -/
def crossoverGraph : Graph where
  strategy := .text "crossover"
  nodes := [.query (.text "price") (some "close"), .sma (.text "slow") 0 3,
    .sma (.text "fast") 0 2, .series (.text "spread") (.series .sub) 2 1,
    .series (.text "gap") (.series .div) 3 2]
  scorePosition := 4
  edges := [(.text "fast", .text "gap"), (.text "spread", .text "gap"),
    (.text "fast", .text "spread"), (.text "slow", .text "spread"),
    (.text "price", .text "slow"), (.text "price", .text "fast")]

theorem crossover_build : crossover.build true = .ok crossoverGraph := by rfl

end ScorePortfolio

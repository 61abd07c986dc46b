import ScorePortfolio.Proofs.Evaluation.Pass

/-!
# What a pass asks of its client

A pass depends on its client through the queries of its nodes alone: two clients that answer these
alike give the same pass, with the same events.  A pass that succeeds has had an answer to each of
its queries, so a client that gives all answers of another one repeats its successful passes.
-/

namespace ScorePortfolio

variable {α : Type} [Quantity α] {c c' : Client α} {asset : Asset} {t : Option Instant}

namespace Node

variable {nodes rest : List Node} {outputs all : List (Series α)}

theorem run_congr {node : Node} (h : ∀ name field, node = .query name field →
    c.query asset t field = c'.query asset t field) :
    node.run c asset t nodes outputs = node.run c' asset t nodes outputs := by
  cases node with
  | query name field => simp only [run, Request.send, h name field rfl]
  | scalar | series | sma | foreign => rfl

/-- Clients that answer the queries of the nodes alike give the same run. -/
theorem runAll_congr (h : ∀ name field, .query name field ∈ rest →
    c.query asset t field = c'.query asset t field) :
    runAll c asset t nodes outputs rest = runAll c' asset t nodes outputs rest := by
  induction rest generalizing outputs with
  | nil => rfl
  | cons node rest ih =>
    have hnode : node.run c asset t nodes outputs = node.run c' asset t nodes outputs :=
      run_congr fun name field heq ↦ h name field (heq ▸ List.mem_cons_self)
    have hrest (x : Series α) : runAll c asset t nodes (outputs ++ [x]) rest =
        runAll c' asset t nodes (outputs ++ [x]) rest :=
      ih fun name field hmem ↦ h name field (List.mem_cons_of_mem _ hmem)
    simp only [runAll, hnode, hrest]

/-- In a successful run every query has its answer. -/
theorem exists_answer {name : Scalar} {field : Option String}
    (hall : (runAll c asset t nodes outputs rest).result = .ok all)
    (hmem : .query name field ∈ rest) : ∃ s, c.query asset t field = .ok s := by
  induction rest generalizing outputs with
  | nil => cases hmem
  | cons node rest ih =>
    obtain ⟨x, hx, hall⟩ := runAll_cons_eq_ok.mp hall
    rcases List.mem_cons.mp hmem with rfl | hmem
    · cases hx with
      | query hq => exact ⟨x, hq⟩
    · exact ih hall hmem

end Node

/-- Clients that answer alike give the same pass. -/
theorem Graph.evaluate_congr {g : Graph}
    (h : ∀ field, c.query asset t field = c'.query asset t field) :
    g.evaluate c asset t = g.evaluate c' asset t := by
  rw [evaluate, evaluate, Node.runAll_congr fun _ field _ ↦ h field]

/-- As of a moment, the other client gives all answers that this one gives. -/
def Client.AnsweredBy (c c' : Client α) (t : Option Instant) : Prop :=
  ∀ asset field s, c.query asset t field = .ok s → c'.query asset t field = .ok s

/-- A successful pass is the same for every client that gives the same answers. -/
theorem Client.AnsweredBy.evaluate_eq (h : c.AnsweredBy c' t) {g : Graph} {r : AssetScore α}
    (hr : (g.evaluate c asset t).result = .ok r) :
    g.evaluate c' asset t = g.evaluate c asset t := by
  obtain ⟨all, hall, -⟩ := bind_eq_ok.mp hr
  rw [Graph.evaluate, Graph.evaluate, Node.runAll_congr fun name field hmem ↦ ?_]
  obtain ⟨s, hs⟩ := Node.exists_answer hall hmem
  rw [hs, h asset field s hs]

end ScorePortfolio

import ScorePortfolio.Proofs.Entries
import ScorePortfolio.Proofs.Evaluation.Pass
import ScorePortfolio.Proofs.Market.Dates

/-!
# Other dates for passes

Two clients that give the same answers under different dates lead a pass over a graph to the same
outputs under different dates, or let it fail at the same node for the same reason: no node looks at
a date other than to compare it with another.
-/

namespace ScorePortfolio

variable {φ : Instant → Instant} {D : Set Instant} {α : Type}

/-! ## What comes out of a pass -/

/-- The request as of the new date. -/
def Request.redate (φ : Instant → Instant) (r : Request) : Request :=
  { r with asOf := r.asOf.map φ }

/-- The error with other dates. -/
def EvaluationError.redate (φ : Instant → Instant) : EvaluationError → EvaluationError
  | request r cause => request (r.redate φ) (cause.redate φ)
  | series cause => series (cause.redate φ)
  | e => e

/-- The event with other dates. -/
def Event.redate (φ : Instant → Instant) : Event → Event
  | asked r => asked (r.redate φ)
  | served name r points => served name (r.redate φ) points
  | failed name asset t e => failed name asset (t.map φ) (e.redate φ)

/-- The score and the outputs with other dates; the names are the same. -/
def AssetScore.redate (φ : Instant → Instant) (r : AssetScore α) : AssetScore α where
  asset := r.asset
  asOf := r.asOf.map φ
  score := r.score.redate φ
  outputs := r.outputs.map (Prod.map id (Series.redate φ))

/-- The same events come about under other dates, and then related results or the same error. -/
structure Outcome.Redated {β : Type} (φ : Instant → Instant) (R : β → β → Prop)
    (o o' : Outcome β) : Prop where
  events : o'.events = o.events.map (Event.redate φ)
  result : Agree (fun e e' ↦ e' = e.redate φ) R o.result o'.result

/-! ## Nodes -/

section Nodes

variable {c c' : Client α} {asset : Asset} {t : Option Instant}

/-- A request to the redated client, as of the redated moment, is answered with the redated
series. -/
theorem Client.Redated.send (hc : Client.Redated φ D c c') {r : Request}
    (hr : ∀ u ∈ r.asOf, u ∈ D) :
    Agree (fun e e' ↦ e' = e.redate φ) (Series.Redated φ D) (r.send c) ((r.redate φ).send c') := by
  have hquery := hc.query r.asset r.asOf r.field hr
  rw [Request.send, Request.send]
  simp only [Request.redate]
  generalize c.query r.asset r.asOf r.field = x, c'.query r.asset _ r.field = x' at hquery ⊢
  cases hquery with
  | ok hs => exact .ok hs
  | @error e e' he =>
    subst he
    cases e <;> exact .error rfl

namespace Node

variable {outputs : List (Series α)}

/-- Reading an operand commutes with redating the outputs. -/
theorem operand_redated (houtputs : ∀ s ∈ outputs, s.DatedIn D) (nodes : List Node) (q : Int) :
    Agree (fun e e' ↦ e' = e.redate φ) (Series.Redated φ D) (operand nodes outputs q)
      (operand nodes (outputs.map (Series.redate φ)) q) := by
  rw [operand, operand]
  cases position? nodes.length q with
  | none => exact .error rfl
  | some i =>
    simp only [List.getElem?_map]
    cases hs : outputs[i]? with
    | some s => exact .ok ⟨houtputs s (List.mem_of_getElem? hs), rfl⟩
    | none =>
      simp only [Option.map_none]
      cases (nodes[i]?).bind name? <;> exact .error rfl

/-- The errors of operations on series are the errors of the nodes. -/
theorem agree_mapError_series {x x' : Except SeriesError (Series α)}
    (h : Series.AgreeRedated φ D x x') :
    Agree (fun e e' ↦ e' = e.redate φ) (Series.Redated φ D) (x.mapError EvaluationError.series)
      (x'.mapError EvaluationError.series) :=
  h.mapError fun _ _ he ↦ congrArg EvaluationError.series he

variable [Quantity α]

/-- A node runs as it does under its own dates. -/
theorem run_redated (hφ : Redates φ D) (hc : Client.Redated φ D c c') (asset : Asset)
    (ht : ∀ u ∈ t, u ∈ D) (houtputs : ∀ s ∈ outputs, s.DatedIn D) (nodes : List Node)
    (node : Node) :
    Outcome.Redated φ (Series.Redated φ D) (node.run c asset t nodes outputs)
      (node.run c' asset (t.map φ) nodes (outputs.map (Series.redate φ))) := by
  have hoperand := operand_redated (φ := φ) houtputs nodes
  cases node with
  | query name field =>
    have hsend := hc.send (r := ⟨asset, t, field⟩) ht
    simp only [run]
    rw [Request.redate] at hsend
    generalize Request.send ⟨asset, t, field⟩ c = x,
      Request.send ⟨asset, t.map φ, field⟩ c' = x' at hsend ⊢
    cases hsend with
    | ok hs =>
      obtain ⟨hdated, rfl⟩ := hs
      refine ⟨?_, .ok ⟨hdated, rfl⟩⟩
      simp [Event.redate, Request.redate]
    | error he => exact ⟨rfl, .error he⟩
  | scalar name operation source number =>
    cases operation with
    | scalar op =>
      refine ⟨rfl, (hoperand source).bind ?_⟩
      rintro s _ - ⟨hs, rfl⟩
      exact agree_mapError_series (Series.withScalar_agree hs op _)
    | query | series | sma => exact ⟨rfl, .error rfl⟩
  | series name operation left right =>
    cases operation with
    | series op =>
      refine ⟨rfl, (hoperand left).bind ?_⟩
      rintro a _ - ⟨ha, rfl⟩
      refine (hoperand right).bind ?_
      rintro b _ - ⟨hb, rfl⟩
      exact agree_mapError_series (Series.withSeries_agree hφ ha hb op)
    | query | scalar | sma => exact ⟨rfl, .error rfl⟩
  | sma name source window =>
    refine ⟨rfl, (hoperand source).bind ?_⟩
    rintro s _ - ⟨hs, rfl⟩
    exact agree_mapError_series (Series.sma_agree hs window)
  | foreign => exact ⟨rfl, .error rfl⟩

/-- By induction on the nodes to run: what has come out before is dated in the set. -/
theorem runAll_redated (hφ : Redates φ D) (hc : Client.Redated φ D c c') (asset : Asset)
    (ht : ∀ u ∈ t, u ∈ D) (houtputs : ∀ s ∈ outputs, s.DatedIn D) (nodes rest : List Node) :
    Outcome.Redated φ (fun all all' ↦ all' = all.map (Series.redate φ))
      (runAll c asset t nodes outputs rest)
      (runAll c' asset (t.map φ) nodes (outputs.map (Series.redate φ)) rest) := by
  induction rest generalizing outputs with
  | nil => exact ⟨rfl, .ok rfl⟩
  | cons node rest ih =>
    obtain ⟨hevents, hresult⟩ := run_redated hφ hc asset ht houtputs nodes node
    rw [runAll, runAll]
    generalize node.run c asset t nodes outputs = o,
      node.run c' asset (t.map φ) nodes (outputs.map (Series.redate φ)) = o' at hevents hresult ⊢
    obtain ⟨events, result⟩ := o
    obtain ⟨events', result'⟩ := o'
    dsimp only at hevents hresult ⊢
    subst hevents
    cases hresult with
    | @ok s s' hs =>
      obtain ⟨hs, rfl⟩ := hs
      have hall : ∀ x ∈ outputs ++ [s], x.DatedIn D := by
        simpa [or_imp, forall_and] using ⟨houtputs, hs⟩
      have hrest := ih hall
      rw [List.map_append, List.map_singleton] at hrest
      refine ⟨?_, hrest.result⟩
      simp only [hrest.events, List.map_append]
    | @error e e' he =>
      subst he
      refine ⟨?_, .error rfl⟩
      cases node.name? <;> simp [Event.redate]

end Node

/-! ## A pass -/

/-- Collecting a pass commutes with redating its outputs. -/
theorem Graph.collect_redated (g : Graph) (outputs : List (Series α)) :
    Agree (fun e e' ↦ e' = e.redate φ) (fun r r' ↦ r' = r.redate φ) (g.collect asset t outputs)
      (g.collect asset (t.map φ) (outputs.map (Series.redate φ))) := by
  rw [collect, collect]
  cases position? g.length g.scorePosition with
  | none => exact .error rfl
  | some i =>
    simp only [Option.bind_some, List.getElem?_map]
    cases outputs[i]? with
    | none => exact .error rfl
    | some score =>
      refine .ok ?_
      have houtputs : Entries.ofList Scalar.same
          (g.executionOrder.zip (outputs.map (Series.redate φ))) =
            (Entries.ofList Scalar.same (g.executionOrder.zip outputs)).map
              (Prod.map id (Series.redate φ)) := by
        rw [List.zip_map_right]
        exact Entries.ofList_map (fun _ _ ↦ rfl) _ _
      rw [houtputs]
      rfl

/-- A pass has the same events, and the same score and outputs or the same failure, under other
dates. -/
theorem Graph.evaluate_redated [Quantity α] (hφ : Redates φ D) (hc : Client.Redated φ D c c')
    (g : Graph) (asset : Asset) (ht : ∀ u ∈ t, u ∈ D) :
    Outcome.Redated φ (fun r r' ↦ r' = r.redate φ) (g.evaluate c asset t)
      (g.evaluate c' asset (t.map φ)) := by
  have hnone : ∀ s ∈ ([] : List (Series α)), s.DatedIn D := by simp
  have hpass := Node.runAll_redated hφ hc asset ht hnone g.nodes g.nodes
  refine ⟨hpass.events, hpass.result.bind ?_⟩
  rintro outputs _ - rfl
  exact g.collect_redated outputs

end Nodes

end ScorePortfolio

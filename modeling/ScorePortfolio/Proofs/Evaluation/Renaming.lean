import ScorePortfolio.Evaluation.Pass
import ScorePortfolio.Proofs.Graph.Renaming
import Mathlib.Logic.Equiv.Basic

/-!
# The names of calculations carry no meaning

A pass over a graph reads positions, and uses the names of nodes to label what comes out.  So under
other names it has the same series, or fails at the same node, and its labels are replaced.  The
graph of a strategy under other names being the graph under other names, it makes no difference how
calculations are called, even if a name is a word that elsewhere stands for a role or a field.
-/

namespace ScorePortfolio

variable {α : Type} {f : String → String}

/-! ## Renaming what comes out of a pass -/

/-- The error with the name of the node that has not run replaced. -/
def EvaluationError.rename (f : String → String) : EvaluationError → EvaluationError
  | notComputed name => notComputed (name.rename f)
  | e => e

/-- The event with the name of its node replaced. -/
def Event.rename (f : String → String) : Event → Event
  | asked r => asked r
  | served name r points => served (name.rename f) r points
  | failed name asset asOf e => failed (name.rename f) asset asOf (e.rename f)

/-- The events and the error under other names. -/
def Outcome.rename {β : Type} (f : String → String) (o : Outcome β) : Outcome β :=
  ⟨o.events.map (Event.rename f), o.result.mapError (EvaluationError.rename f)⟩

/-- The outputs under other names; the score is the same series. -/
def AssetScore.rename (f : String → String) (r : AssetScore α) : AssetScore α :=
  { r with outputs := r.outputs.map (Prod.map (Scalar.rename f) id) }

/-! ## One node -/

namespace Node

/-- Reading an operand fails with the renamed error and otherwise reads the same output. -/
theorem operand_rename (nodes : List Node) (outputs : List (Series α)) (position : Int) :
    operand (nodes.map (Node.rename f)) outputs position =
      (operand nodes outputs position).mapError (EvaluationError.rename f) := by
  rw [operand, List.length_map, operand]
  cases position? nodes.length position with
  | none => rfl
  | some i =>
    dsimp only
    cases outputs[i]? with
    | some s => rfl
    | none =>
      rw [List.getElem?_map]
      cases nodes[i]? with
      | none => rfl
      | some node => cases node <;> rfl

/-- The errors of operations on series name no node. -/
theorem mapError_series {β : Type} (x : Except SeriesError β) :
    (x.mapError EvaluationError.series).mapError (EvaluationError.rename f) =
      x.mapError EvaluationError.series := by
  cases x <;> rfl

variable [Quantity α] {c : Client α} {asset : Asset} {t : Option Instant}

/-- A node runs as it does under its own name. -/
theorem run_rename (nodes : List Node) (outputs : List (Series α)) (node : Node) :
    (node.rename f).run c asset t (nodes.map (Node.rename f)) outputs =
      (node.run c asset t nodes outputs).rename f := by
  cases node with
  | query name field =>
    simp only [rename, run, Request.send]
    cases c.query asset t field with
    | ok s => rfl
    | error e => cases e <;> rfl
  | scalar name operation source number =>
    cases operation with
    | scalar op =>
      simp only [rename, run, operand_rename, Outcome.rename, mapError_bind, mapError_series,
        List.map_nil]
    | query | series | sma => rfl
  | series name operation left right =>
    cases operation with
    | series op =>
      simp only [rename, run, operand_rename, Outcome.rename, mapError_bind, mapError_series,
        List.map_nil]
    | query | scalar | sma => rfl
  | sma name source window =>
    simp only [rename, run, operand_rename, Outcome.rename, mapError_bind, mapError_series,
      List.map_nil]
  | foreign => rfl

/-- By induction on the nodes to run, whatever has come out before. -/
theorem runAll_rename (nodes : List Node) (outputs : List (Series α)) (rest : List Node) :
    runAll c asset t (nodes.map (Node.rename f)) outputs (rest.map (Node.rename f)) =
      (runAll c asset t nodes outputs rest).rename f := by
  induction rest generalizing outputs with
  | nil => rfl
  | cons node rest ih =>
    rw [List.map_cons, runAll, run_rename, runAll]
    cases h : (node.run c asset t nodes outputs).result with
    | ok s =>
      simp only [Outcome.rename, h, Except.mapError, ih, List.map_append]
    | error e =>
      simp only [Outcome.rename, h, Except.mapError, name?_rename, List.map_append]
      cases node.name? <;> rfl

end Node

/-! ## A pass -/

namespace Graph

/-- Collecting a pass commutes with renaming the graph. -/
theorem collect_rename (hf : Function.Injective f) (g : Graph) (asset : Asset) (t : Option Instant)
    (outputs : List (Series α)) :
    (g.rename f).collect asset t outputs =
      ((g.collect asset t outputs).map (AssetScore.rename f)).mapError
        (EvaluationError.rename f) := by
  have hlength : (g.rename f).length = g.length := List.length_map _
  have hscore : (g.rename f).scorePosition = g.scorePosition := rfl
  rw [collect, collect, hlength, hscore]
  cases (position? g.length g.scorePosition).bind (outputs[·]?) with
  | none => rfl
  | some score =>
    have houtputs : Entries.ofList Scalar.same ((g.rename f).executionOrder.zip outputs) =
        (Entries.ofList Scalar.same (g.executionOrder.zip outputs)).map
          (Prod.map (Scalar.rename f) id) := by
      rw [executionOrder_rename, List.zip_map_left, Entries.ofList_map (Scalar.same_rename hf) id]
    dsimp only
    rw [houtputs]
    rfl

/-- The second graph is the first one under other names, and so is all that comes out of a pass. -/
structure Renames (f : String → String) (g g' : Graph) : Prop where
  strategy : g'.strategy = g.strategy
  nodes : g'.nodes = g.nodes.map (Node.rename f)
  positions : g'.positions = g.positions.map (Prod.map (Scalar.rename f) id)
  scorePosition : g'.scorePosition = g.scorePosition
  edges : g'.edges = g.edges.map (renameEdge f)
  /-- Passes for the same asset and moment do the same on the way. -/
  events : ∀ (α : Type) [Quantity α] (client : Client α) (asset : Asset) (t : Option Instant),
    (g'.evaluate client asset t).events = (g.evaluate client asset t).events.map (Event.rename f)
  /-- They have the same score and the same series under the new names, or fail alike. -/
  result : ∀ (α : Type) [Quantity α] (client : Client α) (asset : Asset) (t : Option Instant),
    (g'.evaluate client asset t).result =
      ((g.evaluate client asset t).result.map (AssetScore.rename f)).mapError
        (EvaluationError.rename f)

/-- Every pass over the renamed graph is the renamed pass. -/
theorem renames_rename (hf : Function.Injective f) (g : Graph) : g.Renames f (g.rename f) where
  strategy := rfl
  nodes := rfl
  positions := g.positions_rename
  scorePosition := rfl
  edges := rfl
  events α _ client asset t := congrArg Outcome.events (Node.runAll_rename g.nodes [] g.nodes)
  result α _ client asset t := by
    have hrun : (Node.runAll client asset t (g.rename f).nodes [] (g.rename f).nodes).result =
        (Node.runAll client asset t g.nodes [] g.nodes).result.mapError
          (EvaluationError.rename f) :=
      congrArg Outcome.result (Node.runAll_rename g.nodes [] g.nodes)
    simp only [evaluate, hrun]
    cases (Node.runAll client asset t g.nodes [] g.nodes).result with
    | ok outputs => exact g.collect_rename hf asset t outputs
    | error e => rfl

end Graph

/-- A strategy in which no query has a reference, and the strategy under other names, are both
accepted, with the same graph up to the names, or both refused with errors of one kind. -/
theorem Strategy.build_rename {f : String → String} (hf : Function.Injective f) {s : Strategy}
    (hs : s.NoQueryReferences) (strict : Bool) :
    Agree (fun e e' ↦ e.kind = e'.kind) (Graph.Renames f) (s.build strict)
      ((s.rename f).build strict) := by
  refine (build_agreeVia hf hs strict).imp ?_
  rintro g _ - rfl
  exact g.renames_rename hf

/-! ## The crossover in other words -/

/-- Exchanges some names of the crossover for the words of a field, a role and an operation. -/
def sharedWords : Equiv.Perm String :=
  (Equiv.swap "price" "close").trans ((Equiv.swap "fast" "left").trans (Equiv.swap "gap" "div"))

theorem crossover_noQueryReferences : crossover.NoQueryReferences := by
  intro c hc hop o ho
  simp only [crossover, List.mem_cons, List.not_mem_nil, or_false] at hc
  rcases hc with rfl | rfl | rfl | rfl | rfl <;> cases hop
  rw [List.mem_singleton.mp ho]
  nofun

theorem crossover_renames : Function.Injective sharedWords ∧ crossover.NoQueryReferences ∧
    ∃ g, (crossover.rename sharedWords).build true = .ok g ∧
      g.executionOrder = [.text "close", .text "slow", .text "left", .text "spread", .text "div"] ∧
      crossoverGraph.Renames sharedWords g := by
  refine ⟨sharedWords.injective, crossover_noQueryReferences, ?_⟩
  have h := Strategy.build_rename sharedWords.injective crossover_noQueryReferences true
  rw [crossover_build] at h
  generalize (crossover.rename sharedWords).build true = built at h ⊢
  cases h with
  | ok h =>
    refine ⟨_, rfl, ?_, h⟩
    rw [Graph.executionOrder, h.nodes]
    rfl

end ScorePortfolio

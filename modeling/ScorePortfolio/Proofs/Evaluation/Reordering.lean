import ScorePortfolio.Proofs.Graph.Reordering
import ScorePortfolio.Proofs.Evaluation.ByName

/-!
# The order of a strategy does not matter

Calculations mean the same in a strategy in another order.  So the two strategies are accepted or
refused together, and their graphs have the same outputs for every client, each under its name.
-/

namespace ScorePortfolio

/-- Two passes have the same score and the same named outputs. -/
structure AssetScore.Rearranges {α : Type} (r r' : AssetScore α) : Prop where
  score : r.score = r'.score
  outputs : r.outputs.Perm r'.outputs

/-- Two graphs differ in the order of their nodes and edges only. -/
structure Graph.Rearranges (g g' : Graph) : Prop where
  edges : g.edges.Perm g'.edges
  contents : g.contents.Perm g'.contents
  score : g.scoreName? = g'.scoreName?
  /-- Passes for the same asset and moment succeed together, with the same outputs. -/
  evaluate : ∀ (α : Type) [Quantity α] (client : Client α) (asset : Asset) (t : Option Instant),
    Agree (fun _ _ ↦ True) AssetScore.Rearranges (g.evaluate client asset t).result
      (g'.evaluate client asset t).result

theorem Calculation.Reorders.literal? {c c' : Calculation} (h : c.Reorders c') {role : String} :
    c.literal? role = c'.literal? role := by
  rw [Calculation.literal?, h.operand?, Calculation.literal?]

namespace Strategy

namespace Reorders

variable {α : Type} [Quantity α] {s s' : Strategy} {client : Client α} {asset : Asset}
  {t : Option Instant}

/-- A calculation means the same in the reordered strategy. -/
theorem means (h : s.Reorders s') {c c' : Calculation} (hc : c.Reorders c') {x : Series α}
    (hx : s.Means client asset t c x) : s'.Means client asset t c' x := by
  induction hx generalizing c' with
  | query hop hq => exact .query (hc.operation ▸ hop) (hc.literal? ▸ hq)
  | scalar hop hv hsrc hname _ hk hy hx ih =>
    obtain ⟨src', hsrc', hss⟩ := h.exists_mem hsrc
    exact .scalar (hc.operation ▸ hop) (hc.literal? ▸ hv) hsrc' (hss.name ▸ hname) (ih hss)
      (hc.literal? ▸ hk) hy hx
  | series hop hv hl hln _ hw hr hrn _ hx ihl ihr =>
    obtain ⟨left', hl', hll⟩ := h.exists_mem hl
    obtain ⟨right', hr', hrr⟩ := h.exists_mem hr
    exact .series (hc.operation ▸ hop) (hc.literal? ▸ hv) hl' (hll.name ▸ hln) (ihl hll)
      (hc.literal? ▸ hw) hr' (hrr.name ▸ hrn) (ihr hrr) hx
  | sma hop hv hsrc hname _ hk hw hx ih =>
    obtain ⟨src', hsrc', hss⟩ := h.exists_mem hsrc
    exact .sma (hc.operation ▸ hop) (hc.literal? ▸ hv) hsrc' (hss.name ▸ hname) (ih hss)
      (hc.literal? ▸ hk) hw hx

/-- A name means the same in the reordered strategy. -/
theorem nameMeans (h : s.Reorders s') {n : Scalar} {x : Series α}
    (hx : s.NameMeans client asset t n x) : s'.NameMeans client asset t n x := by
  obtain ⟨c, hc, hn, hx⟩ := hx
  obtain ⟨c', hc', hcc'⟩ := h.exists_mem hc
  exact ⟨c', hc', hcc'.name ▸ hn, h.means hcc' hx⟩

variable {strict : Bool} {p p' : Plan} {g g' : Graph}

/-- A pass over the reordered graph succeeds where the pass over the graph does. -/
theorem evaluate_exists (h : s.Reorders s') (hg : s.BuiltFrom strict p g)
    (hg' : s'.BuiltFrom strict p' g') (hr : ∃ r, (g.evaluate client asset t).result = .ok r) :
    ∃ r, (g'.evaluate client asset t).result = .ok r := by
  rw [evaluate_iff_names hg']
  intro n hn
  obtain ⟨x, hx⟩ := (evaluate_iff_names hg).mp hr n (h.symm.hasName hn)
  exact ⟨x, h.nameMeans hx⟩

/-- Two successful passes give each name the same series, and the same score. -/
theorem evaluate_rearranges (h : s.Reorders s') (hg : s.BuiltFrom strict p g)
    (hg' : s'.BuiltFrom strict p' g') {r r' : AssetScore α}
    (hr : (g.evaluate client asset t).result = .ok r)
    (hr' : (g'.evaluate client asset t).result = .ok r') : r.Rearranges r' := by
  constructor
  · have hscore := h.nameMeans (score_means hg hr)
    rw [h.score_eq hg.plan hg'.plan] at hscore
    exact hscore.unique hg'.plan (score_means hg' hr')
  · refine (List.perm_ext_iff_of_nodup (outputs_nodup hg hr) (outputs_nodup hg' hr')).mpr ?_
    rintro ⟨n, x⟩
    rw [mem_outputs hg hr, mem_outputs hg' hr']
    exact ⟨h.nameMeans, h.symm.nameMeans⟩

/-- The graphs of reordered strategies are rearrangements of each other. -/
theorem rearranges (h : s.Reorders s') (hg : s.BuiltFrom strict p g)
    (hg' : s'.BuiltFrom strict p' g') : g.Rearranges g' where
  edges := h.edges_perm hg hg'
  contents := h.contents_perm hg hg'
  score := by rw [hg.scoreName?_eq, hg'.scoreName?_eq, h.score_eq hg.plan hg'.plan]
  evaluate α _ client asset t := by
    refine agree_of_exists ⟨h.evaluate_exists hg hg', h.symm.evaluate_exists hg' hg⟩ ?_ ?_
    · exact fun r r' hr hr' ↦ h.evaluate_rearranges hg hg' hr hr'
    · exact fun _ _ _ _ ↦ trivial

end Reorders

/-- A strategy with text names and one in another order are both accepted, with graphs that differ
in the order of nodes and edges only, or both refused with errors of one kind. -/
theorem build_reorders {s s' : Strategy} (hs : s.TextNames) (h : s.Reorders s') (strict : Bool) :
    Agree (fun e e' ↦ e.kind = e'.kind) Graph.Rearranges (s.build strict) (s'.build strict) := by
  refine agree_of_exists (h.exists_build_iff hs) ?_ ?_
  · intro g g' hg hg'
    obtain ⟨p, hp⟩ := exists_plan hg
    obtain ⟨p', hp'⟩ := exists_plan hg'
    exact h.rearranges hp hp'
  · intro e e' he he'
    exact h.kind_eq (reportsFirst_of_build hs he) (reportsFirst_of_build (h.textNames hs) he')

end Strategy

/-! ## The crossover from the prices on -/

/-- The crossover with each calculation after those that it reads, and all operands the other way
round. -/
def crossoverFromPrices : Strategy where
  name := crossover.name
  score := crossover.score
  calculations := crossover.calculations.reverse.map fun c ↦
    { c with operands := c.operands.reverse }

theorem crossover_reorders : crossover.Reorders crossoverFromPrices := by
  refine ⟨rfl, rfl, _, (List.reverse_perm _).symm, ?_⟩
  rw [crossoverFromPrices, List.forall₂_map_right_iff, List.forall₂_same]
  intro c hc
  refine ⟨rfl, rfl, .inr ⟨Calculation.distinctRoles_of_same ?_, (List.reverse_perm _).symm⟩⟩
  revert c
  decide

theorem crossover_rearranges : crossover.TextNames ∧ ∃ g, crossoverFromPrices.build true = .ok g ∧
    g.nodes ≠ crossoverGraph.nodes ∧ crossoverGraph.Rearranges g := by
  refine ⟨Strategy.crossover_textNames, _, rfl, by decide, ?_⟩
  cases Strategy.build_reorders Strategy.crossover_textNames crossover_reorders true with
  | ok h => exact h

end ScorePortfolio

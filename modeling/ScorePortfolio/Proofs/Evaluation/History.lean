import ScorePortfolio.Proofs.Evaluation.Outputs
import ScorePortfolio.Proofs.Market.History

/-!
# Passes never revise history

A pass as of an earlier moment, over a client that keeps history, has the outputs of a later pass,
cut at the earlier moment.  All that can happen to it instead is that a window is longer than what
is left of its source.
-/

namespace ScorePortfolio

variable {α : Type}

/-- The outputs of a pass, cut at a moment. -/
def AssetScore.upTo (r : AssetScore α) (t : Instant) : AssetScore α :=
  ⟨r.asset, some t, r.score.upTo (some t), r.outputs.map fun (n, x) ↦ (n, x.upTo (some t))⟩

/-! ## Windows that are too long -/

/-- The node is a moving average whose window is longer than its source, cut at the moment. -/
def Node.Outgrows (node : Node) (nodes : List Node) (outputs : List (Series α)) (t : Instant)
    (e : EvaluationError) : Prop :=
  ∃ name q w x, node = .sma name q w ∧ Node.operand nodes outputs q = .ok x ∧
    (x.upTo (some t)).length < w ∧
    e = .series (.windowTooLong w (x.upTo (some t)).length)

/-- The calculation of the name is a moving average whose window is longer than the output of its
source, cut at the moment. -/
def Strategy.Outgrows (s : Strategy) (r : AssetScore α) (t : Instant) (n : Scalar)
    (e : EvaluationError) : Prop :=
  ∃ c ∈ s.calculations, ∃ v w x, c.name = .scalar n ∧ c.operation = .sma ∧
    c.Refers "time_series" v ∧ c.HasWindow "window_size" w ∧
    Entries.find? Scalar.same (.text v) r.outputs = some x ∧ (x.upTo (some t)).length < w ∧
    e = .series (.windowTooLong w (x.upTo (some t)).length)

/-- A node whose window is outgrown belongs to a name whose window is outgrown. -/
theorem Strategy.BuiltFrom.outgrows {s : Strategy} {strict : Bool} {p : Plan} {g : Graph}
    (h : s.BuiltFrom strict p g) {all : List (Series α)} (hlen : all.length = p.order.length)
    {r : AssetScore α} (hr : r.outputs = p.order.zip all) {t : Instant} {node : Node}
    (hnode : node ∈ g.nodes) {e : EvaluationError} (hlong : node.Outgrows g.nodes all t e) :
    ∃ n, node.name? = some n ∧ s.Outgrows r t n e := by
  obtain ⟨name, q, w, x, rfl, hx, hshort, he⟩ := hlong
  obtain ⟨i, hi⟩ := List.mem_iff_getElem?.mp hnode
  obtain ⟨n, -, c, hc, hname, hcomp⟩ := h.node_at hi
  cases hcomp with
  | sma hop hv hmem hw =>
    have hlt := List.idxOf_lt_length_of_mem hmem
    rw [Node.operand_eq_ok, position?_natCast (h.length_nodes ▸ hlt), Option.bind_some] at hx
    exact ⟨name, rfl, c, hc, _, w, x, hname, hop, hv, hw,
      hr ▸ (h.plan.find?_zip hlen hmem).mpr hx, hshort, he⟩

variable [Quantity α] {client : Client α} {asset : Asset}

/-! ## Nodes -/

namespace Node

variable {nodes rest : List Node} {outputs all : List (Series α)} {t₁ t₂ : Instant}

/-- Over increasing outputs a node yields an increasing series. -/
theorem Yields.isIncreasing (hc : client.KeepsHistory) {t : Option Instant}
    (hout : ∀ x ∈ outputs, x.IsIncreasing) {node : Node} {x : Series α}
    (h : Yields client asset t nodes outputs node x) : x.IsIncreasing := by
  cases h with
  | query hq => exact hc.increasing hq
  | scalar ha hx => exact (hout _ (operand_mem ha)).withScalar hx
  | series ha hb hx => exact (hout _ (operand_mem ha)).withSeries (hout _ (operand_mem hb)) hx
  | sma ha hx => exact (hout _ (operand_mem ha)).sma hx

/-- What a node yields as of a moment it yields as of an earlier one, cut there, if its window still
fits. -/
theorem Yields.earlier (hc : client.KeepsHistory) (h₁ : t₁.InRange) (h₂ : t₂.InRange)
    (hle : t₁ ≤ t₂) (hout : ∀ x ∈ outputs, x.IsIncreasing) {node : Node} {x : Series α}
    (h : Yields client asset (some t₂) nodes outputs node x) :
    Yields client asset (some t₁) nodes (outputs.map (·.upTo (some t₁))) node (x.upTo (some t₁)) ∨
      ∃ e, Outgrows node nodes outputs t₁ e ∧
        (node.run client asset (some t₁) nodes (outputs.map (·.upTo (some t₁)))).result =
          .error e := by
  cases h with
  | query hq => exact .inl (.query (hc.upTo h₁ h₂ hle hq))
  | scalar ha hx => exact .inl (.scalar (operand_map _ ha) (Series.withScalar_upTo hx t₁))
  | series ha hb hx =>
    have hsorted := Series.withSeries_upTo (hout _ (operand_mem ha)) (hout _ (operand_mem hb)) hx t₁
    exact .inl (.series (operand_map _ ha) (operand_map _ hb) hsorted)
  | sma ha hx =>
    rcases Series.sma_upTo hx t₁ with hx | ⟨hshort, herror⟩
    · exact .inl (.sma (operand_map _ ha) hx)
    · refine .inr ⟨_, ⟨_, _, _, _, rfl, ha, hshort, rfl⟩, ?_⟩
      exact bind_eq_error.mpr (.inr ⟨_, operand_map _ ha, mapError_eq_error.mpr ⟨_, herror, rfl⟩⟩)

/-- A pass that succeeds as of a moment succeeds as of an earlier one with the cuts of its outputs,
or fails at a node whose window is too long there. -/
theorem runAll_earlier (hc : client.KeepsHistory) (h₁ : t₁.InRange) (h₂ : t₂.InRange)
    (hle : t₁ ≤ t₂) (hout : ∀ x ∈ outputs, x.IsIncreasing)
    (h : (runAll client asset (some t₂) nodes outputs rest).result = .ok all) :
    (runAll client asset (some t₁) nodes (outputs.map (·.upTo (some t₁))) rest).result =
        .ok (all.map (·.upTo (some t₁))) ∨
      ∃ node ∈ rest, ∃ e, Outgrows node nodes all t₁ e ∧
        (runAll client asset (some t₁) nodes (outputs.map (·.upTo (some t₁))) rest).result =
          .error e ∧
        ∀ name, node.name? = some name → .failed name asset (some t₁) e ∈
          (runAll client asset (some t₁) nodes (outputs.map (·.upTo (some t₁))) rest).events := by
  -- both passes run node by node, the earlier one on the cuts of what the later one has so far
  induction rest generalizing outputs with
  | nil =>
    obtain rfl := Except.ok.inj h
    exact .inl rfl
  | cons node rest ih =>
    obtain ⟨x, hx, h⟩ := runAll_cons_eq_ok.mp h
    have hout' : ∀ y ∈ outputs ++ [x], y.IsIncreasing := by
      intro y hy
      rcases List.mem_append.mp hy with hy | hy
      · exact hout y hy
      · exact List.mem_singleton.mp hy ▸ hx.isIncreasing hc hout
    rcases hx.earlier hc h₁ h₂ hle hout with hx | ⟨e, hlong, herror⟩
    · obtain ⟨hresult, hevents⟩ := runAll_cons_of_ok (run_eq_ok.mpr hx)
      have ih := ih hout' h
      rw [List.map_append, List.map_singleton] at ih
      rcases ih with hok | ⟨node', hmem, e, hlong, herror, hfailed⟩
      · exact .inl (hresult.trans hok)
      · exact .inr ⟨node', List.mem_cons_of_mem _ hmem, e, hlong, hresult.trans herror,
          fun name hname ↦ hevents (hfailed name hname)⟩
    · obtain ⟨name, q, w, y, hnode, hy, hshort, he⟩ := hlong
      have hpre : outputs <+: all := (List.prefix_append _ _).trans (prefix_of_runAll h)
      exact .inr ⟨node, List.mem_cons_self, e,
        ⟨name, q, w, y, hnode, operand_of_prefix hpre hy, hshort, he⟩, runAll_cons_of_error herror⟩

end Node

/-! ## Built graphs -/

namespace Strategy

/-- Over a client that keeps history, as that of every market does, a pass over a built graph as of
an earlier moment has the cuts of the later outputs, or fails where a window is too long. -/
theorem build_keepsHistory {s : Strategy} {strict : Bool} {g : Graph} (h : s.build strict = .ok g) :
    (∀ m : Market α, m.client.KeepsHistory) ∧
    ∀ client : Client α, client.KeepsHistory → ∀ (asset : Asset) (t₁ t₂ : Instant),
      t₁.InRange → t₂.InRange → t₁ ≤ t₂ →
      ∀ r, (g.evaluate client asset (some t₂)).result = .ok r →
        (g.evaluate client asset (some t₁)).result = .ok (r.upTo t₁) ∨
        ∃ n e, s.Outgrows r t₁ n e ∧ (g.evaluate client asset (some t₁)).result = .error e ∧
          .failed n asset (some t₁) e ∈ (g.evaluate client asset (some t₁)).events := by
  refine ⟨Market.client_keepsHistory, fun client hc asset t₁ t₂ h₁ h₂ hle r hr ↦ ?_⟩
  obtain ⟨p, hp⟩ := exists_plan h
  obtain ⟨all, hall, hscore, hr⟩ := hp.evaluate_eq_ok.mp hr
  have hlen : all.length = p.order.length := by
    simpa [hp.length_nodes] using Node.length_of_runAll hall
  rcases Node.runAll_earlier hc h₁ h₂ hle (by simp) hall with hok | ⟨node, hnode, e, hlong, herror,
    hfailed⟩
  · left
    obtain ⟨x, hx, hevaluate⟩ := hp.evaluate_of_runAll hok
    rw [List.getElem?_map, hscore, Option.map_some] at hx
    obtain rfl := Option.some.inj hx
    rw [hevaluate, List.zip_map_right, hr]
    rfl
  · right
    obtain ⟨n, hn, hout⟩ := hp.outgrows hlen (congrArg AssetScore.outputs hr) hnode hlong
    exact ⟨n, e, hout, bind_eq_error.mpr (.inl herror), hfailed n hn⟩

end Strategy

theorem fourPrices_keepsHistory : fourPrices.KeepsHistory := by
  refine ⟨fun {_ t _ s} h ↦ ?_, fun {_ t₁ t₂ _ s} _ _ hle h ↦ ?_⟩
  · obtain rfl := Except.ok.inj h
    exact Series.IsIncreasing.upTo (Series.increasing_iff.mp (by decide)) t
  · obtain rfl := Except.ok.inj h
    exact congrArg Except.ok (Series.upTo_upTo _ hle).symm

theorem crossover_earlier : ∃ r : AssetScore Rat,
    (crossoverGraph.evaluate fourPrices ⟨"A"⟩ (some ⟨4⟩)).result = .ok r ∧
      (crossoverGraph.evaluate fourPrices ⟨"A"⟩ (some ⟨3⟩)).result = .ok (r.upTo ⟨3⟩) := by
  obtain ⟨r, hr, -⟩ := exists_crossover
  have hok : (crossoverGraph.evaluate fourPrices ⟨"A"⟩ (some ⟨3⟩)).result.map (·.score) =
      .ok ⟨[(⟨3⟩, 1 / 13)]⟩ := by decide +kernel
  refine ⟨r, hr, ?_⟩
  rcases (Strategy.build_keepsHistory crossover_build).2 fourPrices fourPrices_keepsHistory ⟨"A"⟩
    ⟨3⟩ ⟨4⟩ (by decide) (by decide) (by decide) r hr with h | ⟨n, e, -, h, -⟩
  · exact h
  · cases h ▸ hok

end ScorePortfolio

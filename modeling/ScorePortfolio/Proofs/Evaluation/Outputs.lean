import ScorePortfolio.Proofs.Entries
import ScorePortfolio.Proofs.Graph.Built
import ScorePortfolio.Proofs.Evaluation.Pass

/-!
# Outputs of a pass over a built graph

A pass over a built graph succeeds if its nodes do.  Each name of the strategy then has an output of
its own, which is the one at its position, and the score is the output of its name.
-/

namespace ScorePortfolio

variable {α : Type}

/-! ## Names -/

section Names

variable {s : Strategy} {strict : Bool} {p : Plan} {all : List (Series α)}

theorem Strategy.Planned.keys_zip_nodup (h : s.Planned strict p)
    (hlen : all.length = p.order.length) : ((p.order.zip all).map (Scalar.key ·.1)).Nodup := by
  have hfst : (p.order.zip all).map (Scalar.key ·.1) = p.order.map Scalar.key := by
    rw [← Function.comp_def, ← List.map_map, List.map_fst_zip hlen.ge]
  exact hfst ▸ h.order_keys_nodup

/-- Named outputs are as they are in a table without repeated names. -/
theorem Strategy.Planned.ofList_zip (h : s.Planned strict p) (hlen : all.length = p.order.length) :
    Entries.ofList Scalar.same (p.order.zip all) = p.order.zip all :=
  Entries.ofList_eq_self
    (Entries.pairwise_of_nodup (fun a b ↦ @same_iff a b) (h.keys_zip_nodup hlen))

/-- The output of a name is the one at its position. -/
theorem Strategy.Planned.find?_zip (h : s.Planned strict p) (hlen : all.length = p.order.length)
    {n : Scalar} (hn : n ∈ p.order) {x : Series α} :
    Entries.find? Scalar.same n (p.order.zip all) = some x ↔ all[p.order.idxOf n]? = some x := by
  rw [Entries.find?_eq_some (fun a b ↦ @same_iff a b) (h.keys_zip_nodup hlen)]
  constructor
  · rintro ⟨m, hkey, hmem⟩
    obtain rfl := List.inj_on_of_nodup_map h.order_keys_nodup (List.of_mem_zip hmem).1 hn hkey
    obtain ⟨i, hi⟩ := List.mem_iff_getElem?.mp hmem
    obtain ⟨hname, hx⟩ := List.getElem?_zip_eq_some.mp hi
    rwa [h.idxOf_eq hname]
  · intro hx
    exact ⟨n, rfl, List.mem_iff_getElem?.mpr
      ⟨_, List.getElem?_zip_eq_some.mpr ⟨List.getElem?_idxOf hn, hx⟩⟩⟩

end Names

/-! ## Passes -/

variable [Quantity α] {client : Client α} {asset : Asset} {t : Option Instant}

namespace Strategy.BuiltFrom

variable {s : Strategy} {strict : Bool} {p : Plan} {g : Graph}

theorem position?_score (h : s.BuiltFrom strict p g) :
    position? g.length g.scorePosition = some (p.order.idxOf p.score) := by
  rw [h.scorePosition, Graph.length, h.length_nodes]
  exact position?_natCast (List.idxOf_lt_length_of_mem h.plan.score_mem)

/-- The outputs of a pass are those of the nodes, by name. -/
theorem evaluate_of_runAll (h : s.BuiltFrom strict p g) {all : List (Series α)}
    (hall : (Node.runAll client asset t g.nodes [] g.nodes).result = .ok all) :
    ∃ x, all[p.order.idxOf p.score]? = some x ∧
      (g.evaluate client asset t).result = .ok ⟨asset, t, x, p.order.zip all⟩ := by
  have hlen : all.length = p.order.length := by
    simpa [h.length_nodes] using Node.length_of_runAll hall
  have hlt := hlen ▸ List.idxOf_lt_length_of_mem h.plan.score_mem
  refine ⟨_, List.getElem?_eq_getElem hlt, ?_⟩
  rw [Graph.evaluate, hall]
  simp only [Except.bind, Graph.collect, h.position?_score, Option.bind_some,
    List.getElem?_eq_getElem hlt, h.executionOrder_eq, h.plan.ofList_zip hlen]

/-- A pass succeeds with the outputs of the run, listed by name, and the output of the score. -/
theorem evaluate_eq_ok (h : s.BuiltFrom strict p g) {r : AssetScore α} :
    (g.evaluate client asset t).result = .ok r ↔
      ∃ all, (Node.runAll client asset t g.nodes [] g.nodes).result = .ok all ∧
        all[p.order.idxOf p.score]? = some r.score ∧
        r = ⟨asset, t, r.score, p.order.zip all⟩ := by
  constructor
  · intro hr
    obtain ⟨all, hall, -⟩ := bind_eq_ok.mp hr
    obtain ⟨x, hx, hr'⟩ := h.evaluate_of_runAll hall
    obtain rfl := Except.ok.inj (hr.symm.trans hr')
    exact ⟨all, hall, hx, rfl⟩
  · rintro ⟨all, hall, hscore, hr⟩
    obtain ⟨x, hx, hr'⟩ := h.evaluate_of_runAll hall
    obtain rfl := Option.some.inj (hscore.symm.trans hx)
    rw [hr', ← hr]

end Strategy.BuiltFrom

/-! ## The crossover of four prices -/

/-- A client with the same four prices for every asset. -/
def fourPrices : Client Rat where
  assets := [("A", ⟨"A"⟩)]
  asset symbol := .ok ⟨symbol⟩
  query _ t _ := .ok (Series.upTo ⟨[(⟨1⟩, 10), (⟨2⟩, 12), (⟨3⟩, 14), (⟨4⟩, 12)]⟩ t)

theorem crossover_score :
    (crossoverGraph.evaluate fourPrices ⟨"A"⟩ (some ⟨4⟩)).result.map (·.score) =
      .ok ⟨[(⟨3⟩, 1 / 13), (⟨4⟩, 1 / 39)]⟩ := by
  decide +kernel

theorem exists_crossover : ∃ r : AssetScore Rat,
    (crossoverGraph.evaluate fourPrices ⟨"A"⟩ (some ⟨4⟩)).result = .ok r ∧
      r.score = ⟨[(⟨3⟩, 1 / 13), (⟨4⟩, 1 / 39)]⟩ := by
  have hscore := crossover_score
  cases hr : (crossoverGraph.evaluate fourPrices ⟨"A"⟩ (some ⟨4⟩)).result with
  | ok r => exact ⟨r, rfl, Except.ok.inj (hr ▸ hscore)⟩
  | error e => cases hr ▸ hscore

end ScorePortfolio

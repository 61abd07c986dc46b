import ScorePortfolio.Proofs.Evaluation.Correctness

/-!
# Outputs by name

The outputs of a pass over a built graph, as a set of names with their meanings.  In this form they
can be compared between graphs whose nodes stand in different orders.
-/

namespace ScorePortfolio.Strategy

variable {α : Type} [Quantity α] {s : Strategy} {strict : Bool} {p : Plan} {g : Graph}
  {client : Client α} {asset : Asset} {t : Option Instant} {r : AssetScore α}

theorem NameMeans.hasName {n : Scalar} {x : Series α} (h : s.NameMeans client asset t n x) :
    s.HasName n := by
  obtain ⟨c, hc, hn, -⟩ := h
  exact ⟨c, hc, hn⟩

/-- The output of a name is what the name means, and every name that means something has one. -/
theorem mem_outputs (h : s.BuiltFrom strict p g)
    (hr : (g.evaluate client asset t).result = .ok r) {n : Scalar} {x : Series α} :
    (n, x) ∈ r.outputs ↔ s.NameMeans client asset t n x := by
  obtain ⟨all, hall, -, hr⟩ := h.evaluate_eq_ok.mp hr
  replace hall := (runAll_iff h).mp hall
  rw [hr]
  constructor
  · exact fun hmem ↦ (List.forall₂_iff_zip.mp hall).2 hmem
  · rintro ⟨c, hc, hn, hx⟩
    have hname := List.getElem?_idxOf (h.plan.hasName_iff.mp ⟨c, hc, hn⟩)
    have hout := (getElem?_idxOf_iff h hall hc hn).mpr hx
    exact List.mem_iff_getElem?.mpr ⟨_, List.getElem?_zip_eq_some.mpr ⟨hname, hout⟩⟩

/-- A pass gives one output to a name. -/
theorem outputs_nodup (h : s.BuiltFrom strict p g)
    (hr : (g.evaluate client asset t).result = .ok r) : r.outputs.Nodup := by
  obtain ⟨all, hall, -, hr⟩ := h.evaluate_eq_ok.mp hr
  have hlen := ((runAll_iff h).mp hall).length_eq.symm
  rw [hr]
  exact .of_map _ (h.plan.keys_zip_nodup hlen)

/-- The score is what the name of the score means. -/
theorem score_means (h : s.BuiltFrom strict p g)
    (hr : (g.evaluate client asset t).result = .ok r) :
    s.NameMeans client asset t p.score r.score := by
  obtain ⟨all, hall, hscore, -⟩ := h.evaluate_eq_ok.mp hr
  obtain ⟨c, hc, hn⟩ := h.plan.hasName_iff.mpr h.plan.score_mem
  exact ⟨c, hc, hn, (getElem?_idxOf_iff h ((runAll_iff h).mp hall) hc hn).mp hscore⟩

/-- A pass succeeds if every name means something. -/
theorem evaluate_iff_names (h : s.BuiltFrom strict p g) :
    (∃ r, (g.evaluate client asset t).result = .ok r) ↔
      ∀ n, s.HasName n → ∃ x, s.NameMeans client asset t n x := by
  rw [evaluate_iff h, ← forall_nameMeans_iff h]
  exact forall_congr' fun n ↦ by rw [h.plan.hasName_iff]

end ScorePortfolio.Strategy

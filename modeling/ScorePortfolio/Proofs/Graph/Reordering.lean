import ScorePortfolio.Proofs.Strategy.Reordering
import ScorePortfolio.Proofs.Graph.Contents
import ScorePortfolio.Proofs.Graph.Validity

/-!
# Graphs of reordered strategies

A strategy in another order obeys the same rules, so it is refused for the same first rule and with
an error of the same kind.  If it is accepted, the order of the nodes and all positions may change,
but neither the edges nor what the nodes hold.
-/

namespace ScorePortfolio

/-- The content of a calculation does not depend on the order of its operands. -/
theorem Calculation.Reorders.hasContent {c c' : Calculation} (h : c.Reorders c') {n : Scalar}
    {x : Content} (hx : c.HasContent n x) : c'.HasContent n x := by
  cases hx with
  | query hop hf => exact .query (h.operation ▸ hop) (h.hasField hf)
  | scalar hop hv hx =>
    rw [h.operation] at hop ⊢
    exact .scalar hop (h.refers hv) (h.hasNumber hx)
  | series hop hv hw =>
    rw [h.operation] at hop ⊢
    exact .series hop (h.refers hv) (h.refers hw)
  | sma hop hv hn => exact .sma (h.operation ▸ hop) (h.refers hv) (h.hasWindow hn)

namespace Strategy

/-- The kind of the errors that report a broken rule. -/
def Rule.kind : Rule → StrategyError.Kind
  | operands => .operand
  | _ => .strategy

theorem Reports.kind {s : Strategy} {r : Rule} {e : StrategyError} (h : s.Reports r e) :
    e.kind = r.kind := by
  cases h <;> rfl

/-- Whatever the construction reports is the first rule broken. -/
theorem reportsFirst_of_build {s : Strategy} (hs : s.TextNames) {strict : Bool} {e : StrategyError}
    (h : s.build strict = .error e) : s.ReportsFirst strict e := by
  rcases bind_eq_error.mp h with h | ⟨p, hp, h⟩
  · exact reportsFirst_of_planFailure hs (planFailure_of_plan h)
  · exact reportsFirst_of_compile hs (planned_of_plan hp) h

/-- A strategy that obeys all rules is not refused. -/
theorem exists_build {s : Strategy} (hs : s.TextNames) {strict : Bool}
    (hall : ∀ r, s.Obeys strict r) : ∃ g, s.build strict = .ok g := by
  cases h : s.build strict with
  | ok g => exact ⟨g, rfl⟩
  | error e =>
    obtain ⟨r, -, hbroken, -⟩ := reportsFirst_of_build hs h
    exact absurd (hall r) hbroken

namespace Reorders

variable {s s' : Strategy} {strict : Bool}

/-- Reordering breaks no rule. -/
theorem obeys (h : s.Reorders s') {r : Rule} (hr : s.Obeys strict r) : s'.Obeys strict r := by
  cases r with
  | calculations =>
    have hlen := h.names_perm.length_eq
    simp only [List.length_map] at hlen
    exact fun hnil ↦ hr (List.eq_nil_of_length_eq_zero (by simp [hlen, hnil]))
  | distinctNames => exact h.names_perm.nodup_iff.mp hr
  | score =>
    rw [Obeys, ← h.score]
    exact h.names_perm.mem_iff.mp hr
  | references => exact h.knownReferences hr
  | acyclic =>
    rw [Obeys, ← h.depends_eq]
    exact hr
  | connected =>
    intro hstrict a b ha hb
    exact h.linked_eq ▸ hr hstrict a b (h.symm.hasName ha) (h.symm.hasName hb)
  | operands =>
    intro c' hc'
    obtain ⟨c, hc, hcc'⟩ := h.symm.exists_mem hc'
    exact hcc'.symm.hasOperands (hr c hc)

/-- The same rule is the first one to be broken, so the errors are of one kind. -/
theorem kind_eq (h : s.Reorders s') {e e' : StrategyError} (he : s.ReportsFirst strict e)
    (he' : s'.ReportsFirst strict e') : e.kind = e'.kind := by
  obtain ⟨r, hrep, hbroken, hbelow⟩ := he
  obtain ⟨r', hrep', hbroken', hbelow'⟩ := he'
  have hle : r.rank ≤ r'.rank :=
    Nat.le_of_not_lt fun hlt ↦ hbroken' (h.obeys (hbelow r' hlt))
  have hge : r'.rank ≤ r.rank :=
    Nat.le_of_not_lt fun hlt ↦ hbroken (h.symm.obeys (hbelow' r hlt))
  rw [hrep.kind, hrep'.kind, Rule.rank_injective (Nat.le_antisymm hle hge)]

/-- A reordered strategy is accepted exactly if the strategy is. -/
theorem exists_build_iff (h : s.Reorders s') (hs : s.TextNames) :
    (∃ g, s.build strict = .ok g) ↔ ∃ g, s'.build strict = .ok g := by
  constructor
  · rintro ⟨g, hg⟩
    exact exists_build (h.textNames hs) fun r ↦ h.obeys (obeys_of_build hs hg r)
  · rintro ⟨g, hg⟩
    exact exists_build hs fun r ↦ h.symm.obeys (obeys_of_build (h.textNames hs) hg r)

/-! ## Two graphs -/

section Built

variable {p p' : Plan} {g g' : Graph}

/-- The orders of execution list the same names. -/
theorem order_perm (h : s.Reorders s') (hp : s.Planned strict p) (hp' : s'.Planned strict p') :
    p.order.Perm p'.order := by
  refine (List.perm_ext_iff_of_nodup hp.order_nodup hp'.order_nodup).mpr fun n ↦ ?_
  rw [← hp.hasName_iff, ← hp'.hasName_iff]
  exact ⟨h.hasName, h.symm.hasName⟩

/-- The score is the same name. -/
theorem score_eq (h : s.Reorders s') (hp : s.Planned strict p) (hp' : s'.Planned strict p') :
    p.score = p'.score := by
  refine hp'.eq_score (h.hasName (hp.hasName_iff.mpr hp.score_mem)) ?_
  rw [← h.score]
  exact (scoreIn?_eq_some hp.score).2

/-- The graphs have the same edges, up to order. -/
theorem edges_perm (h : s.Reorders s') (hg : s.BuiltFrom strict p g)
    (hg' : s'.BuiltFrom strict p' g') : g.edges.Perm g'.edges := by
  have hnodup : g.edges.Nodup := hg.edges ▸ collectEdges_nodup hg.plan.edges
  have hnodup' : g'.edges.Nodup := hg'.edges ▸ collectEdges_nodup hg'.plan.edges
  refine (List.perm_ext_iff_of_nodup hnodup hnodup').mpr fun (a, b) ↦ ?_
  rw [hg.mem_edges, hg'.mem_edges, h.depends_eq]

theorem nameContent (h : s.Reorders s') {n : Scalar} {x : Content} (hx : s.NameContent n x) :
    s'.NameContent n x := by
  obtain ⟨c, hc, hn, hx⟩ := hx
  obtain ⟨c', hc', hcc'⟩ := h.exists_mem hc
  exact ⟨c', hc', hcc'.name ▸ hn, hcc'.hasContent hx⟩

/-- The graphs have the same contents, up to order. -/
theorem contents_perm (h : s.Reorders s') (hg : s.BuiltFrom strict p g)
    (hg' : s'.BuiltFrom strict p' g') : g.contents.Perm g'.contents := by
  have hright : Relator.RightUnique s'.NameContent := fun _ _ _ hx hy ↦ hx.unique hg'.plan hy
  exact List.rel_perm_imp hright (hg.forall₂_contents.imp fun _ _ ↦ h.nameContent)
    hg'.forall₂_contents (h.order_perm hg.plan hg'.plan)

end Built

end Reorders

end Strategy

end ScorePortfolio

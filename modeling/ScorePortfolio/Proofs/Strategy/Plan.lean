import ScorePortfolio.Proofs.Strategy.Dependencies
import ScorePortfolio.Proofs.Digraph.Component
import ScorePortfolio.Proofs.Digraph.Order

/-!
# Plans of strategies

What every plan satisfies, and what every failure to plan means.  The digraph of a plan is the
dependency relation of the strategy, so its cycles and parts are those of the strategy.
-/

namespace ScorePortfolio

open Relation

/-! ## Kinds of errors -/

/-- What sort of error it is, whatever its message says. -/
inductive StrategyError.Kind where
  /-- The strategy as a whole is invalid. -/
  | strategy
  /-- An operand is. -/
  | operand
  /-- A mapping is missing. -/
  | mapping
  /-- A value does not suit its use. -/
  | value
deriving DecidableEq

/-- The kind of an error. -/
def StrategyError.kind : StrategyError → Kind
  | invalid .. => .strategy
  | operand .. => .operand
  | notMapping => .mapping
  | notIterable | compositeName | unorderedNames => .value

/-! ## Success and failure -/

/-- The calculations of a plan with their dependencies. -/
def Plan.digraph (p : Plan) : Digraph Scalar := ⟨p.named.map (·.1), p.edges⟩

namespace Strategy

/-- A path of dependencies joins the two calculations when directions do not count. -/
def Linked (s : Strategy) : Scalar → Scalar → Prop :=
  ReflTransGen fun a b ↦ s.Depends a b ∨ s.Depends b a

theorem Linked.symm {s : Strategy} {a b : Scalar} (h : s.Linked a b) : s.Linked b a := by
  induction h with
  | refl => exact .refl
  | tail _ hj ih => exact .head hj.symm ih

/-- The name that is the score. -/
def scoreIn? (s : Strategy) (named : List (Scalar × Calculation)) : Option Scalar :=
  (named.map (·.1)).find? fun n ↦ (Doc.scalar n).same s.score

/-- What holds of a plan of the strategy. -/
structure Planned (s : Strategy) (strict : Bool) (p : Plan) : Prop where
  nonempty : s.calculations ≠ []
  named : s.named = .ok p.named
  distinct : (p.named.map (·.1.key)).Nodup
  score : s.scoreIn? p.named = some p.score
  edges : collectEdges s.name p.named = .ok p.edges
  acyclic : p.digraph.stuck = []
  order : p.order = p.digraph.order
  looseness : looseness? p.digraph p.score = .ok p.looseness
  connected : strict = true → p.looseness = none

/-- The failures of planning, each with the steps passed before it. -/
inductive PlanFailure (s : Strategy) (strict : Bool) : StrategyError → Prop where
  | naming {e} : s.distinctlyNamed = .error e → PlanFailure s strict e
  | score {named} : s.distinctlyNamed = .ok named → s.scoreIn? named = none →
      PlanFailure s strict (.invalid s.name (.unknownScore s.score))
  | edges {named score e} : s.distinctlyNamed = .ok named → s.scoreIn? named = some score →
      collectEdges s.name named = .error e → PlanFailure s strict e
  | cycle {named score edges} {g : Digraph Scalar} : s.distinctlyNamed = .ok named →
      s.scoreIn? named = some score → collectEdges s.name named = .ok edges →
      g = ⟨named.map (·.1), edges⟩ → g.stuck ≠ [] →
      PlanFailure s strict (.invalid s.name (.cycle g.stuck))
  | parts {named score edges e} {g : Digraph Scalar} : s.distinctlyNamed = .ok named →
      s.scoreIn? named = some score → collectEdges s.name named = .ok edges →
      g = ⟨named.map (·.1), edges⟩ → g.stuck = [] → looseness? g score = .error e →
      PlanFailure s strict e
  | disconnected {named score edges l} {g : Digraph Scalar} : s.distinctlyNamed = .ok named →
      s.scoreIn? named = some score → collectEdges s.name named = .ok edges →
      g = ⟨named.map (·.1), edges⟩ → g.stuck = [] → strict = true →
      looseness? g score = .ok (some l) →
      PlanFailure s strict (.invalid s.name (.disconnected l.count l.orphans))

/-- A plan that is made satisfies everything a plan of its strategy is to satisfy. -/
theorem planned_of_plan {s : Strategy} {strict : Bool} {p : Plan} (h : s.plan strict = .ok p) :
    s.Planned strict p := by
  obtain ⟨named, hnamed, h⟩ := bind_eq_ok.mp h
  obtain ⟨hne, hn, hdistinct⟩ := distinctlyNamed_eq_ok.mp hnamed
  dsimp only at h
  split at h
  · cases h
  next score hscore =>
  obtain ⟨edges, hedges, h⟩ := bind_eq_ok.mp h
  by_cases hstuck : (Digraph.stuck ⟨named.map (·.1), edges⟩ : List Scalar) = []
  · simp only [hstuck, List.isEmpty_nil, Bool.not_true, Bool.false_eq_true, if_false] at h
    obtain ⟨loose, hloose, h⟩ := bind_eq_ok.mp h
    split at h
    · cases h
    · next hconn =>
      obtain rfl := pure_eq_ok.mp h
      refine ⟨hne, hn, hdistinct, hscore, hedges, hstuck, rfl, hloose, fun hstrict ↦ ?_⟩
      cases loose with
      | none => rfl
      | some l => exact absurd rfl (hconn l hstrict)
  · rw [if_pos (by simpa using hstuck)] at h
    cases h

/-- There is one plan at most, and what holds of it determines it. -/
theorem Planned.plan_eq {s : Strategy} {strict : Bool} {p : Plan} (h : s.Planned strict p) :
    s.plan strict = .ok p := by
  have hnamed := distinctlyNamed_eq_ok.mpr ⟨h.nonempty, h.named, h.distinct⟩
  have hscore := h.score
  have hstuck : (Digraph.stuck ⟨p.named.map (·.1), p.edges⟩ : List Scalar) = [] := h.acyclic
  have horder : p.order = Digraph.order ⟨p.named.map (·.1), p.edges⟩ := h.order
  rw [scoreIn?] at hscore
  refine bind_eq_ok.mpr ⟨p.named, hnamed, ?_⟩
  simp only [hscore]
  refine bind_eq_ok.mpr ⟨p.edges, h.edges, ?_⟩
  rw [if_neg (by simp [hstuck])]
  refine bind_eq_ok.mpr ⟨p.looseness, h.looseness, ?_⟩
  split
  · next l hl => cases (h.connected rfl).symm.trans hl
  · rw [pure_eq_ok, ← horder]

/-- A plan that fails, fails at one of its stages, each of which had the earlier ones succeed. -/
theorem planFailure_of_plan {s : Strategy} {strict : Bool} {e : StrategyError}
    (h : s.plan strict = .error e) : s.PlanFailure strict e := by
  rcases bind_eq_error.mp h with h | ⟨named, hnamed, h⟩
  · exact .naming h
  dsimp only at h
  split at h
  · next hscore => exact throw_eq_error.mp h ▸ .score hnamed hscore
  next score hscore =>
  rcases bind_eq_error.mp h with h | ⟨edges, hedges, h⟩
  · exact .edges hnamed hscore h
  by_cases hstuck : (Digraph.stuck ⟨named.map (·.1), edges⟩ : List Scalar) = []
  · simp only [hstuck, List.isEmpty_nil, Bool.not_true, Bool.false_eq_true, if_false] at h
    rcases bind_eq_error.mp h with h | ⟨loose, hloose, h⟩
    · exact .parts hnamed hscore hedges rfl hstuck h
    split at h
    · exact throw_eq_error.mp h ▸ .disconnected hnamed hscore hedges rfl hstuck rfl hloose
    · exact absurd h pure_ne_error
  · rw [if_pos (by simpa using hstuck)] at h
    exact throw_eq_error.mp h ▸ .cycle hnamed hscore hedges rfl hstuck

/-! ## The digraph of a plan -/

section Digraph

variable {s : Strategy} {named : List (Scalar × Calculation)} {edges : List (Scalar × Scalar)}
  {g : Digraph Scalar}

/-- The digraph of a strategy has distinct vertices, and its edges run between them. -/
theorem digraph_wellFormed (hdistinct : (named.map (·.1.key)).Nodup)
    (hedges : collectEdges s.name named = .ok edges) (hg : g = ⟨named.map (·.1), edges⟩) :
    g.WellFormed := by
  subst hg
  have hkeys : named.map (·.1.key) = (named.map (·.1)).map Scalar.key := by simp
  refine ⟨.of_map _ (hkeys ▸ hdistinct), collectEdges_nodup hedges, fun h ↦ ?_, fun h ↦ ?_⟩
  · exact ((mem_collectEdges hedges).mp h).1
  · obtain ⟨-, c, hc, -⟩ := (mem_collectEdges hedges).mp h
    exact List.mem_map.mpr ⟨_, hc, rfl⟩

/-- Adjacency in the digraph is dependency in the strategy. -/
theorem digraph_adj (hnamed : s.named = .ok named)
    (hedges : collectEdges s.name named = .ok edges) (hg : g = ⟨named.map (·.1), edges⟩) :
    g.Adj = s.Depends := by
  subst hg
  funext a b
  exact propext (mem_edges hnamed hedges)

/-- Being linked in the digraph is being linked in the strategy, in either direction. -/
theorem digraph_linked (hnamed : s.named = .ok named)
    (hedges : collectEdges s.name named = .ok edges) (hg : g = ⟨named.map (·.1), edges⟩) :
    g.Linked = s.Linked := by
  have hjoined : g.Joined = fun a b ↦ s.Depends a b ∨ s.Depends b a := by
    funext a b
    rw [Digraph.Joined, digraph_adj hnamed hedges hg]
  rw [Digraph.Linked, hjoined, Linked]

end Digraph

/-! ## Parts -/

/-- Nothing is loose exactly if the digraph has one component. -/
theorem looseness?_eq_none {g : Digraph Scalar} {score : Scalar} :
    looseness? g score = .ok none ↔ g.components.length = 1 := by
  rw [looseness?]
  by_cases h : g.components.length = 1
  · simp [h]
  · rw [if_neg h]
    refine ⟨fun hnone ↦ ?_, fun h' ↦ absurd h' h⟩
    obtain ⟨_, -, hsome⟩ := bind_eq_ok.mp hnone
    cases pure_eq_ok.mp hsome

/-- Among text names, those in other parts than the score are listed in ascending order. -/
theorem looseness?_text {g : Digraph Scalar} (hg : g.WellFormed) {texts : List String}
    (htexts : g.vertices = texts.map .text) {score : Scalar} (hscore : score ∈ g.vertices)
    (h : g.components.length ≠ 1) :
    ∃ orphans : List String,
      looseness? g score = .ok (some ⟨g.components.length, orphans.map .text⟩) ∧
      orphans.Pairwise (· < ·) ∧
      ∀ t, t ∈ orphans ↔ .text t ∈ g.vertices ∧ ¬ g.Linked score (.text t) := by
  let apart := texts.filter fun t ↦ Scalar.text t ∉ g.component score
  have hapart : g.vertices.filter (· ∉ g.component score) = apart.map .text := by
    rw [htexts, List.filter_map]
    rfl
  have hnodup : texts.Nodup := nodup_map_text.mp (htexts ▸ hg.vertices_nodup)
  refine ⟨apart.mergeSort (· ≤ ·), ?_, mergeSort_texts_lt (hnodup.filter _), fun t ↦ ?_⟩
  · simp only [looseness?, h, if_false, hapart, sortNames_text, ok_bind]
    rfl
  · rw [List.mem_mergeSort, List.mem_filter, decide_eq_true_eq, Digraph.mem_component hg hscore,
      htexts, List.mem_map_of_injective fun _ _ h ↦ Scalar.text.inj h]

/-! ## The score -/

/-- The score found is a name of the strategy, and the same name as the one the document gives. -/
theorem scoreIn?_eq_some {s : Strategy} {named : List (Scalar × Calculation)} {n : Scalar}
    (h : s.scoreIn? named = some n) :
    n ∈ named.map (·.1) ∧ (Doc.scalar n).same s.score = true := by
  rw [scoreIn?] at h
  have hsame := List.find?_some h
  exact ⟨List.mem_of_find?_eq_some h, hsame⟩

/-- A text is the same as itself only: no other kind of value compares equal to it. -/
theorem same_docText {t : String} {doc : Doc} : (Doc.text t).same doc = true ↔ doc = .text t := by
  cases doc with
  | scalar a => simp [Doc.same, text_same_iff]
  | list items => simp [Doc.same]
  | map entries => simp [Doc.same]

/-- Among text names, the score has to be one of them. -/
theorem scoreIn?_eq_none {s : Strategy} (hs : s.TextNames) {named : List (Scalar × Calculation)}
    (hnamed : s.named = .ok named) :
    s.scoreIn? named = none ↔ s.score ∉ s.calculations.map (·.name) := by
  obtain ⟨texts, htexts⟩ := hs.exists_texts
  obtain ⟨named', hnamed', hfst⟩ := exists_named htexts
  obtain rfl : named = named' := Except.ok.inj (hnamed.symm.trans hnamed')
  rw [scoreIn?, hfst, htexts, List.find?_eq_none]
  constructor
  · intro h hscore
    obtain ⟨t, ht, heq⟩ := List.mem_map.mp hscore
    exact h (.text t) (List.mem_map_of_mem ht) (same_docText.mpr heq.symm)
  · intro h n hn hsame
    obtain ⟨t, ht, rfl⟩ := List.mem_map.mp hn
    exact h (List.mem_map.mpr ⟨t, ht, (same_docText.mp hsame).symm⟩)

end Strategy

end ScorePortfolio

import ScorePortfolio.Proofs.Graph.Contents
import ScorePortfolio.Proofs.Graph.Validity

/-!
# Cyclic strategies

Every reference that names a calculation is a dependency, whatever its role, and a strategy is
refused for a cycle where dependencies lead in a circle.  Evaluation reads less: the calculations in
the roles of an operation, and none for a query.  So the circle is one of calculations that read
each other unless an idle reference lies on it.
-/

namespace ScorePortfolio

open Relation

/-! ## What evaluation reads -/

/-- The calculation names another one in a role that its operation reads. -/
def Calculation.Uses (c : Calculation) (v : String) : Prop :=
  match c.operation with
  | .query => False
  | .scalar _ => c.Refers "time_series" v
  | .series _ => c.Refers "left" v ∨ c.Refers "right" v
  | .sma => c.Refers "time_series" v

namespace Calculation

variable {c : Calculation} {v : String}

theorem Uses.exists_mem (h : c.Uses v) : ∃ o ∈ c.operands, o.RefersTo v := by
  rw [Uses] at h
  split at h
  · exact h.elim
  · exact h.exists_mem
  · exact h.elim Refers.exists_mem Refers.exists_mem
  · exact h.exists_mem

/-- The node of a calculation reads the positions of the names that the calculation uses. -/
theorem CompilesTo.reads_iff {order : List Scalar} {name : Scalar} {node : Node}
    (h : c.CompilesTo order name node) {q : Int} :
    q ∈ node.reads ↔ ∃ v, c.Uses v ∧ q = order.idxOf (.text v) := by
  cases h with
  | query hop _ => simp [Node.reads, Uses, hop]
  | scalar hop hv _ _ =>
    simp only [Node.reads, Uses, hop, List.mem_singleton]
    exact ⟨fun hq ↦ ⟨_, hv, hq⟩, fun ⟨w, hw, hq⟩ ↦ hv.unique hw ▸ hq⟩
  | series hop hv _ hw _ =>
    simp only [Node.reads, Uses, hop, List.mem_cons, List.not_mem_nil, or_false]
    constructor
    · rintro (hq | hq)
      · exact ⟨_, .inl hv, hq⟩
      · exact ⟨_, .inr hw, hq⟩
    · rintro ⟨u, hu | hu, hq⟩
      · exact .inl (hv.unique hu ▸ hq)
      · exact .inr (hw.unique hu ▸ hq)
  | sma hop hv _ _ =>
    simp only [Node.reads, Uses, hop, List.mem_singleton]
    exact ⟨fun hq ↦ ⟨_, hv, hq⟩, fun ⟨w, hw, hq⟩ ↦ hv.unique hw ▸ hq⟩

end Calculation

namespace Strategy

/-- The second calculation reads the first. -/
def Reads (s : Strategy) (a b : Scalar) : Prop :=
  s.HasName a ∧ ∃ c ∈ s.calculations, c.name = .scalar b ∧ ∃ v, c.Uses v ∧ a = .text v

/-- The second calculation depends on the first, but does not read it. -/
def DependsIdly (s : Strategy) (a b : Scalar) : Prop := s.Depends a b ∧ ¬ s.Reads a b

variable {s : Strategy} {a b : Scalar}

/-- Evaluation reads nothing but dependencies. -/
theorem Reads.depends (h : s.Reads a b) : s.Depends a b := by
  obtain ⟨ha, c, hc, hn, v, hv, rfl⟩ := h
  obtain ⟨o, ho, href⟩ := hv.exists_mem
  exact ⟨ha, c, hc, hn, o, ho, v, href, rfl⟩

/-- A path of dependencies is one of calculations that read each other, or has an idle one on it. -/
theorem reads_or_dependsIdly (h : TransGen s.Depends a b) : TransGen s.Reads a b ∨
    ∃ u v, ReflTransGen s.Depends a u ∧ s.DependsIdly u v ∧ ReflTransGen s.Depends v b := by
  induction h with
  | @single b hab =>
    by_cases hread : s.Reads a b
    · exact .inl (.single hread)
    · exact .inr ⟨a, b, .refl, ⟨hab, hread⟩, .refl⟩
  | @tail b c hab hbc ih =>
    rcases ih with ih | ⟨u, v, hau, huv, hvb⟩
    · by_cases hread : s.Reads b c
      · exact .inl (ih.tail hread)
      · exact .inr ⟨b, c, hab.to_reflTransGen, ⟨hbc, hread⟩, .refl⟩
    · exact .inr ⟨u, v, hau, huv, hvb.tail hbc⟩

/-! ## The steps before and after the search for cycles -/

variable {strict : Bool} {d : Doc} {names : List Scalar}

/-- Checking the names reports no cycle. -/
theorem distinctlyNamed_ne_cycle : s.distinctlyNamed ≠ .error (.invalid d (.cycle names)) := by
  intro h
  rw [distinctlyNamed] at h
  split at h
  · cases h
  rcases bind_eq_error.mp h with h | ⟨_, -, h⟩
  · obtain ⟨_, c, _, -, -, h⟩ := mapM_eq_error h
    split at h <;> cases h
  rcases bind_eq_error.mp h with h | ⟨_, -, h⟩
  · cases sortNames_eq_error h
  · split at h <;> cases h

/-- Looking for loose parts reports no cycle. -/
theorem looseness?_ne_cycle {g : Digraph Scalar} {score : Scalar} :
    looseness? g score ≠ .error (.invalid d (.cycle names)) := by
  intro h
  rw [looseness?] at h
  split at h
  · cases h
  rcases bind_eq_error.mp h with h | ⟨_, -, h⟩
  · cases sortNames_eq_error h
  · cases h

/-- Only the search for cycles reports one, after the names were found distinct and the references
known. -/
theorem build_eq_cycle (h : s.build strict = .error (.invalid d (.cycle names))) :
    ∃ (named : List (Scalar × Calculation)) (g : Digraph Scalar), s.named = .ok named ∧
      (named.map (·.1.key)).Nodup ∧ g.WellFormed ∧ g.Adj = s.Depends ∧ g.stuck ≠ [] ∧
      d = s.name ∧ names = g.stuck := by
  rcases bind_eq_error.mp h with h | ⟨p, hp, h⟩
  · -- the error is kept apart from the constructors, whose indices are compound
    generalize he : StrategyError.invalid d (.cycle names) = e at h
    cases planFailure_of_plan h with
    | naming h => exact absurd (he ▸ h) distinctlyNamed_ne_cycle
    | score => cases he
    | edges _ _ hedges =>
      obtain ⟨_, -, _, -, hedge⟩ := collectEdges_eq_error hedges
      obtain ⟨-, -, -, rfl⟩ := Operand.edge?_eq_error.mp hedge
      cases he
    | cycle hnamed _ hedges hg hstuck =>
      obtain ⟨-, hn, hdistinct⟩ := distinctlyNamed_eq_ok.mp hnamed
      cases he
      exact ⟨_, _, hn, hdistinct, digraph_wellFormed hdistinct hedges hg,
        digraph_adj hn hedges hg, hstuck, rfl, rfl⟩
    | parts _ _ _ _ _ hloose => exact absurd (he ▸ hloose) looseness?_ne_cycle
    | disconnected => cases he
  · obtain ⟨_, -, _, _, -, he⟩ := lacks_of_compile (planned_of_plan hp) h
    cases he

/-! ## Cycles -/

/-- A calculation on a cycle has a reference that names a calculation. -/
theorem exists_reference_of_cycle {n : Scalar} (h : TransGen s.Depends n n) :
    ∃ c ∈ s.calculations, c.name = .scalar n ∧
      ∃ o ∈ c.operands, ∃ v, o.RefersTo v ∧ s.HasName (.text v) := by
  obtain ⟨m, -, hm, c, hc, hn, o, ho, v, hv, rfl⟩ := TransGen.tail'_iff.mp h
  exact ⟨c, hc, hn, o, ho, v, hv, hm⟩

/-- A strategy that is refused for a cycle has one among the reported names, each calculation
naming the one before it by a reference.  Each reads the one before it, unless an idle dependency
lies on the cycle.  A calculation without a reference that names a calculation is on no cycle;
queries of external fields are of this kind. -/
theorem exists_cycle_of_build (h : s.build strict = .error (.invalid d (.cycle names))) :
    (∃ n ∈ names, TransGen s.Depends n n ∧ (TransGen s.Reads n n ∨
        ∃ u v, ReflTransGen s.Depends n u ∧ s.DependsIdly u v ∧ ReflTransGen s.Depends v n)) ∧
      ∀ c ∈ s.calculations, ∀ n, c.name = .scalar n →
        (∀ o ∈ c.operands, ∀ v, o.RefersTo v → ¬ s.HasName (.text v)) →
        ¬ TransGen s.Depends n n := by
  obtain ⟨named, g, hnamed, hdistinct, hg, hadj, hstuck, -, rfl⟩ := build_eq_cycle h
  constructor
  · obtain ⟨v, hv⟩ := List.exists_mem_of_ne_nil _ hstuck
    obtain ⟨-, n, hcycle, -⟩ := (Digraph.mem_stuck hg).mp hv
    have hn : n ∈ g.stuck := by
      obtain ⟨m, hedge, -⟩ := TransGen.head'_iff.mp hcycle
      exact (Digraph.mem_stuck hg).mpr ⟨hg.source_mem hedge, n, hcycle, .refl⟩
    rw [hadj] at hcycle
    exact ⟨n, hn, hcycle, reads_or_dependsIdly hcycle⟩
  · intro c hc n hn hno hcycle
    obtain ⟨c', hc', hn', o, ho, v, hv, hname⟩ := exists_reference_of_cycle hcycle
    have hmem := (mem_named hnamed).mpr ⟨hc, hn⟩
    have hmem' := (mem_named hnamed).mpr ⟨hc', hn'⟩
    obtain rfl : c = c' := congrArg Prod.snd (List.inj_on_of_nodup_map hdistinct hmem hmem' rfl)
    exact hno o ho v hv hname

/-- Two sums that read each other. -/
def circular : Strategy where
  name := .text "circular"
  score := .text "b"
  calculations := [
    ⟨.text "p", .query, [⟨.text "field", .text, "close"⟩]⟩,
    ⟨.text "a", .series .add,
      [⟨.text "left", .reference, "p"⟩, ⟨.text "right", .reference, "b"⟩]⟩,
    ⟨.text "b", .series .add,
      [⟨.text "left", .reference, "a"⟩, ⟨.text "right", .reference, "p"⟩]⟩]

theorem circular_build :
    circular.build true = .error (.invalid (.text "circular") (.cycle [.text "a", .text "b"])) := by
  rfl

/-- In the circular strategy every dependency is a reading. -/
theorem circular_reads {a b : Scalar} (h : circular.Depends a b) : circular.Reads a b := by
  obtain ⟨ha, c, hc, hb, o, ho, v, hv, rfl⟩ := h
  refine ⟨ha, c, hc, hb, v, ?_, rfl⟩
  simp only [circular, List.mem_cons, List.not_mem_nil, or_false] at hc
  rcases hc with rfl | rfl | rfl <;>
    simp only [List.mem_cons, List.not_mem_nil, or_false] at ho
  · obtain rfl := ho
    cases hv.1
  all_goals
    rcases ho with rfl | rfl <;> obtain rfl := Option.some.inj hv.2
    · exact .inl ⟨_, rfl, rfl, rfl⟩
    · exact .inr ⟨_, rfl, rfl, rfl⟩

theorem circular_cycle :
    ∃ n ∈ [Scalar.text "a", .text "b"], TransGen circular.Reads n n := by
  obtain ⟨⟨n, hn, -, hreads | ⟨u, v, -, hidle, -⟩⟩, -⟩ := exists_cycle_of_build circular_build
  · exact ⟨n, hn, hreads⟩
  · exact absurd (circular_reads hidle.1) hidle.2

/-- A query of an external field that has the name of the query. -/
def namesake : Strategy where
  name := .text "namesake"
  score := .text "close"
  calculations := [⟨.text "close", .query, [⟨.text "field", .reference, "close"⟩]⟩]

/-- An average with a reference to itself in a role that averages do not have. -/
def selfNamed : Strategy where
  name := .text "selfNamed"
  score := .text "mean"
  calculations := [
    ⟨.text "price", .query, [⟨.text "field", .text, "close"⟩]⟩,
    ⟨.text "mean", .sma, [⟨.text "time_series", .reference, "price"⟩,
      ⟨.text "window_size", .integer, "2"⟩, ⟨.text "left", .reference, "mean"⟩]⟩]

/-- Idle references alone make a cycle: no calculation of these strategies reads itself, directly or
through others, and both are refused. -/
theorem idle_cycles :
    (namesake.build true = .error (.invalid (.text "namesake") (.cycle [.text "close"])) ∧
      ∀ n, ¬ TransGen namesake.Reads n n) ∧
    selfNamed.build true = .error (.invalid (.text "selfNamed") (.cycle [.text "mean"])) ∧
      ∀ n, ¬ TransGen selfNamed.Reads n n := by
  refine ⟨⟨rfl, fun n hn ↦ ?_⟩, rfl, fun n hn ↦ ?_⟩
  · obtain ⟨_, -, -, c, hc, -, v, hv, -⟩ := TransGen.tail'_iff.mp hn
    obtain rfl := List.mem_singleton.mp hc
    exact hv
  · have hreads {a b} (h : selfNamed.Reads a b) : a = .text "price" ∧ b = .text "mean" := by
      obtain ⟨-, c, hc, hb, v, hv, rfl⟩ := h
      simp only [selfNamed, List.mem_cons, List.not_mem_nil, or_false] at hc
      rcases hc with rfl | rfl
      · exact hv.elim
      · obtain ⟨o, ho, -, hov⟩ := hv
        obtain rfl : _ = o := Option.some.inj ho
        exact ⟨congrArg _ (Option.some.inj hov).symm, (Doc.scalar.inj hb).symm⟩
    obtain ⟨_, hhead, -⟩ := TransGen.head'_iff.mp hn
    obtain ⟨_, -, htail⟩ := TransGen.tail'_iff.mp hn
    have heq : Scalar.text "price" = .text "mean" := (hreads hhead).1.symm.trans (hreads htail).2
    exact absurd heq (by decide)

end Strategy

end ScorePortfolio

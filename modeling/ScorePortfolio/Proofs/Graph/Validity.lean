import ScorePortfolio.Proofs.Graph.Built

/-!
# Valid strategies

A strategy with text names has a graph if it obeys seven rules, which speak of its calculations,
their names, their dependencies and their operands, and of nothing that building computes.  The
rules have an order, and a strategy without a graph is refused for the first rule that it breaks.
-/

namespace ScorePortfolio

open Relation

namespace Strategy

/-- What a strategy has to obey, in the order in which building looks at it. -/
inductive Rule where
  /-- There are calculations. -/
  | calculations
  /-- Their names are distinct. -/
  | distinctNames
  /-- The score is one of them. -/
  | score
  /-- References of calculations other than queries name calculations. -/
  | references
  /-- No calculation depends on itself, directly or through others. -/
  | acyclic
  /-- If that is asked for, dependencies join any two calculations. -/
  | connected
  /-- Each calculation has the operands that its operation needs. -/
  | operands

/-- The place of a rule in the order. -/
def Rule.rank : Rule → Nat
  | calculations => 0
  | distinctNames => 1
  | score => 2
  | references => 3
  | acyclic => 4
  | connected => 5
  | operands => 6

theorem Rule.rank_injective {r r' : Rule} (h : r.rank = r'.rank) : r = r' := by
  cases r <;> cases r' <;> first | rfl | cases h

/-- The strategy obeys the rule. -/
def Obeys (s : Strategy) (strict : Bool) : Rule → Prop
  | .calculations => s.calculations ≠ []
  | .distinctNames => (s.calculations.map (·.name)).Nodup
  | .score => s.score ∈ s.calculations.map (·.name)
  | .references => s.KnownReferences
  | .acyclic => ∀ n, ¬ TransGen s.Depends n n
  | .connected => strict = true → ∀ a b, s.HasName a → s.HasName b → s.Linked a b
  | .operands => ∀ c ∈ s.calculations, c.HasOperands

/-- The error reports that the rule is broken, and where. -/
inductive Reports (s : Strategy) : Rule → StrategyError → Prop where
  | calculations : Reports s .calculations (.invalid s.name .noCalculations)
  | distinctNames {found : List String} : found ≠ [] → found.Pairwise (· < ·) →
      (∀ t, t ∈ found ↔ List.Duplicate (Doc.text t) (s.calculations.map (·.name))) →
      Reports s .distinctNames (.invalid s.name (.duplicateNames (found.map .text)))
  | score : Reports s .score (.invalid s.name (.unknownScore s.score))
  | references {c o} : c ∈ s.calculations → c.operation ≠ .query → o ∈ c.operands →
      o.kind = .reference → (∀ v, o.value = some v → ¬ s.HasName (.text v)) →
      Reports s .references (.invalid s.name (.unknownReference c.name o.value o.role))
  | acyclic {found : List Scalar} : found ≠ [] →
      (∀ n, n ∈ found ↔
        s.HasName n ∧ ∃ m, TransGen s.Depends m m ∧ ReflTransGen s.Depends m n) →
      Reports s .acyclic (.invalid s.name (.cycle found))
  | connected {count score} {orphans : List String} : (Doc.scalar score).same s.score = true →
      orphans.Pairwise (· < ·) →
      (∀ t, t ∈ orphans ↔ s.HasName (.text t) ∧ ¬ s.Linked score (.text t)) →
      Reports s .connected (.invalid s.name (.disconnected count (orphans.map .text)))
  | operands {c role d} : c ∈ s.calculations → c.Lacks role →
      Reports s .operands (.operand c.name (.text role) d)

/-- The strategy obeys the first rules of the order. -/
def ObeysBelow (s : Strategy) (strict : Bool) (k : Nat) : Prop :=
  ∀ r : Rule, r.rank < k → s.Obeys strict r

/-- Obeying the rules below one and that one is obeying the rules below the next. -/
theorem ObeysBelow.step {s : Strategy} {strict : Bool} (r : Rule)
    (h : s.ObeysBelow strict r.rank) (hr : s.Obeys strict r) :
    s.ObeysBelow strict (r.rank + 1) := by
  intro r' hlt
  rcases Nat.lt_succ_iff_lt_or_eq.mp hlt with hlt | heq
  · exact h r' hlt
  · exact Rule.rank_injective heq ▸ hr

/-! ## Steps that are passed -/

section Steps

variable {s : Strategy} {strict : Bool} {named : List (Scalar × Calculation)} {score : Scalar}
  {edges : List (Scalar × Scalar)}

/-- Names found distinct obey every rule before the one on the score. -/
theorem obeysBelow_score (hs : s.TextNames) (hnamed : s.distinctlyNamed = .ok named) :
    s.ObeysBelow strict Rule.score.rank := by
  obtain ⟨hne, hn, hdistinct⟩ := distinctlyNamed_eq_ok.mp hnamed
  have h₀ : s.ObeysBelow strict Rule.calculations.rank := fun r hr ↦ absurd hr (Nat.not_lt_zero _)
  exact (h₀.step .calculations hne).step .distinctNames ((nodup_names hs hn).mp hdistinct)

/-- With the score found, every rule before the one on references is obeyed. -/
theorem obeysBelow_references (hs : s.TextNames) (hnamed : s.distinctlyNamed = .ok named)
    (hscore : s.scoreIn? named = some score) : s.ObeysBelow strict Rule.references.rank := by
  obtain ⟨-, hn, -⟩ := distinctlyNamed_eq_ok.mp hnamed
  refine (obeysBelow_score hs hnamed).step .score ?_
  by_contra hout
  simp [(scoreIn?_eq_none hs hn).mpr hout] at hscore

theorem obeysBelow_acyclic (hs : s.TextNames) (hnamed : s.distinctlyNamed = .ok named)
    (hscore : s.scoreIn? named = some score) (hedges : collectEdges s.name named = .ok edges) :
    s.ObeysBelow strict Rule.acyclic.rank := by
  obtain ⟨-, hn, -⟩ := distinctlyNamed_eq_ok.mp hnamed
  exact (obeysBelow_references hs hnamed hscore).step .references ((exists_edges hn).mp ⟨_, hedges⟩)

/-- With nothing stuck, every rule before the one on loose parts is obeyed. -/
theorem obeysBelow_connected (hs : s.TextNames) (hnamed : s.distinctlyNamed = .ok named)
    (hscore : s.scoreIn? named = some score) (hedges : collectEdges s.name named = .ok edges)
    {g : Digraph Scalar} (hg : g = ⟨named.map (·.1), edges⟩) (hstuck : g.stuck = []) :
    s.ObeysBelow strict Rule.connected.rank := by
  obtain ⟨-, hn, hdistinct⟩ := distinctlyNamed_eq_ok.mp hnamed
  refine (obeysBelow_acyclic hs hnamed hscore hedges).step .acyclic ?_
  have hcycle := (Digraph.stuck_eq_nil (digraph_wellFormed hdistinct hedges hg)).mp hstuck
  rwa [digraph_adj hn hedges hg] at hcycle

/-- A plan obeys every rule before the one on operands. -/
theorem obeysBelow_operands (hs : s.TextNames) {p : Plan} (hp : s.Planned strict p) :
    s.ObeysBelow strict Rule.operands.rank := by
  have hnamed := distinctlyNamed_eq_ok.mpr ⟨hp.nonempty, hp.named, hp.distinct⟩
  refine (obeysBelow_connected hs hnamed hp.score hp.edges rfl hp.acyclic).step .connected ?_
  intro hstrict a b ha hb
  have hone := looseness?_eq_none.mp (hp.connected hstrict ▸ hp.looseness)
  have hne : p.digraph.vertices ≠ [] := List.ne_nil_of_mem ((hasName_iff hp.named).mp ha)
  have hlinked := (Digraph.components_length_eq_one hp.wellFormed hne).mp hone a
    ((hasName_iff hp.named).mp ha) b ((hasName_iff hp.named).mp hb)
  rwa [Plan.digraph, digraph_linked hp.named hp.edges rfl] at hlinked

end Steps

/-! ## Steps that fail -/

theorem exists_vertices {s : Strategy} (hs : s.TextNames) {named : List (Scalar × Calculation)}
    (hn : s.named = .ok named) {edges : List (Scalar × Scalar)} {g : Digraph Scalar}
    (hg : g = ⟨named.map (·.1), edges⟩) : ∃ texts : List String, g.vertices = texts.map .text := by
  obtain ⟨texts, htexts⟩ := hs.exists_texts
  obtain ⟨named', hn', hfst⟩ := exists_named htexts
  obtain rfl : named = named' := Except.ok.inj (hn.symm.trans hn')
  exact ⟨texts, hg ▸ hfst⟩

/-- The error reports the first rule that the strategy breaks. -/
def ReportsFirst (s : Strategy) (strict : Bool) (e : StrategyError) : Prop :=
  ∃ r, s.Reports r e ∧ ¬ s.Obeys strict r ∧ s.ObeysBelow strict r.rank

/-- A refusal of the names is the first rule broken. -/
theorem reportsFirst_of_naming {s : Strategy} {strict : Bool} {e : StrategyError}
    (hs : s.TextNames) (h : s.distinctlyNamed = .error e) : s.ReportsFirst strict e := by
  have h₀ : s.ObeysBelow strict Rule.calculations.rank := fun r hr ↦ absurd hr (Nat.not_lt_zero _)
  rcases distinctlyNamed_eq_error hs h with ⟨hnil, rfl⟩ | ⟨hne, found, hfound, rfl, hsorted, hmem⟩
  · exact ⟨.calculations, .calculations, fun hne ↦ hne hnil, h₀⟩
  · refine ⟨.distinctNames, .distinctNames hfound hsorted hmem, ?_, h₀.step .calculations hne⟩
    obtain ⟨t, ht⟩ := List.exists_mem_of_ne_nil _ hfound
    exact List.exists_duplicate_iff_not_nodup.mp ⟨_, (hmem t).mp ht⟩

section Failures

variable {s : Strategy} {strict : Bool} {named : List (Scalar × Calculation)} {score : Scalar}

theorem reportsFirst_of_score (hs : s.TextNames) (hnamed : s.distinctlyNamed = .ok named)
    (hscore : s.scoreIn? named = none) :
    s.ReportsFirst strict (.invalid s.name (.unknownScore s.score)) := by
  obtain ⟨-, hn, -⟩ := distinctlyNamed_eq_ok.mp hnamed
  exact ⟨.score, .score, (scoreIn?_eq_none hs hn).mp hscore, obeysBelow_score hs hnamed⟩

/-- A refusal of the edges is the first rule broken. -/
theorem reportsFirst_of_edges (hs : s.TextNames) (hnamed : s.distinctlyNamed = .ok named)
    (hscore : s.scoreIn? named = some score) {e : StrategyError}
    (hedges : collectEdges s.name named = .error e) : s.ReportsFirst strict e := by
  obtain ⟨-, hn, -⟩ := distinctlyNamed_eq_ok.mp hnamed
  obtain ⟨⟨n, c⟩, hp, o, ho, hedge⟩ := collectEdges_eq_error hedges
  obtain ⟨hkind, hop, hout, rfl⟩ := Operand.edge?_eq_error.mp hedge
  have hunknown : ∀ v, o.value = some v → ¬ s.HasName (.text v) := by
    intro v hv hname
    exact hout v hv ((hasName_iff hn).mp hname)
  refine ⟨.references, .references ((mem_named hn).mp hp).1 hop ho hkind hunknown, ?_,
    obeysBelow_references hs hnamed hscore⟩
  intro hknown
  obtain ⟨edges, hok⟩ := (exists_edges hn).mpr hknown
  cases hok.symm.trans hedges

variable {edges : List (Scalar × Scalar)} {g : Digraph Scalar}

/-- A report of a cycle is the first rule broken. -/
theorem reportsFirst_of_cycle (hs : s.TextNames) (hnamed : s.distinctlyNamed = .ok named)
    (hscore : s.scoreIn? named = some score) (hedges : collectEdges s.name named = .ok edges)
    (hg : g = ⟨named.map (·.1), edges⟩) (hstuck : g.stuck ≠ []) :
    s.ReportsFirst strict (.invalid s.name (.cycle g.stuck)) := by
  obtain ⟨-, hn, hdistinct⟩ := distinctlyNamed_eq_ok.mp hnamed
  have hwf := digraph_wellFormed hdistinct hedges hg
  have hadj := digraph_adj hn hedges hg
  refine ⟨.acyclic, .acyclic hstuck ?_, ?_, obeysBelow_acyclic hs hnamed hscore hedges⟩
  · intro n
    rw [Digraph.mem_stuck hwf, hadj, hasName_iff hn, hg]
  · intro hacyc
    exact hstuck ((Digraph.stuck_eq_nil hwf).mpr (hadj ▸ hacyc))

/-- Texts have an order, so the parts of a strategy with text names can be reported. -/
theorem looseness?_ne_error (hs : s.TextNames) (hnamed : s.distinctlyNamed = .ok named)
    (hscore : s.scoreIn? named = some score) (hedges : collectEdges s.name named = .ok edges)
    (hg : g = ⟨named.map (·.1), edges⟩) (e : StrategyError) : looseness? g score ≠ .error e := by
  intro hloose
  obtain ⟨-, hn, hdistinct⟩ := distinctlyNamed_eq_ok.mp hnamed
  obtain ⟨texts, htexts⟩ := exists_vertices hs hn hg
  have hmem : score ∈ g.vertices := hg ▸ (scoreIn?_eq_some hscore).1
  by_cases hone : g.components.length = 1
  · cases hloose.symm.trans (looseness?_eq_none.mpr hone)
  · obtain ⟨_, hok, -⟩ := looseness?_text (digraph_wellFormed hdistinct hedges hg) htexts hmem hone
    cases hloose.symm.trans hok

/-- A report of loose parts is the first rule broken. -/
theorem reportsFirst_of_looseness (hs : s.TextNames) (hnamed : s.distinctlyNamed = .ok named)
    (hscore : s.scoreIn? named = some score) (hedges : collectEdges s.name named = .ok edges)
    (hg : g = ⟨named.map (·.1), edges⟩) (hstuck : g.stuck = []) (hstrict : strict = true)
    {l : Looseness} (hloose : looseness? g score = .ok (some l)) :
    s.ReportsFirst strict (.invalid s.name (.disconnected l.count l.orphans)) := by
  obtain ⟨-, hn, hdistinct⟩ := distinctlyNamed_eq_ok.mp hnamed
  obtain ⟨texts, htexts⟩ := exists_vertices hs hn hg
  obtain ⟨hmem, hsame⟩ := scoreIn?_eq_some hscore
  have hwf := digraph_wellFormed hdistinct hedges hg
  have hlinked := digraph_linked hn hedges hg
  have hvertex : ∀ n, n ∈ g.vertices ↔ s.HasName n := by
    intro n
    rw [hasName_iff hn, hg]
  replace hmem : score ∈ g.vertices := hg ▸ hmem
  have hone : g.components.length ≠ 1 := by
    intro hone
    cases hloose.symm.trans (looseness?_eq_none.mpr hone)
  obtain ⟨orphans, hok, hsorted, horphans⟩ := looseness?_text hwf htexts hmem hone
  obtain rfl := Option.some.inj (Except.ok.inj (hloose.symm.trans hok))
  refine ⟨.connected, .connected hsame hsorted ?_, ?_,
    obeysBelow_connected hs hnamed hscore hedges hg hstuck⟩
  · intro t
    rw [horphans, hvertex, hlinked]
  · intro hconn
    refine hone ((Digraph.components_length_eq_one hwf (List.ne_nil_of_mem hmem)).mpr ?_)
    intro a ha b hb
    exact hlinked ▸ hconn hstrict a b ((hvertex a).mp ha) ((hvertex b).mp hb)

end Failures

/-- Whatever the plan fails with is the first rule broken. -/
theorem reportsFirst_of_planFailure {s : Strategy} {strict : Bool} {e : StrategyError}
    (hs : s.TextNames) (h : s.PlanFailure strict e) : s.ReportsFirst strict e := by
  cases h with
  | naming h => exact reportsFirst_of_naming hs h
  | score hnamed hscore => exact reportsFirst_of_score hs hnamed hscore
  | edges hnamed hscore hedges => exact reportsFirst_of_edges hs hnamed hscore hedges
  | cycle hnamed hscore hedges hg hstuck =>
    exact reportsFirst_of_cycle hs hnamed hscore hedges hg hstuck
  | parts hnamed hscore hedges hg _ hloose =>
    exact absurd hloose (looseness?_ne_error hs hnamed hscore hedges hg _)
  | disconnected hnamed hscore hedges hg hstuck hstrict hloose =>
    exact reportsFirst_of_looseness hs hnamed hscore hedges hg hstuck hstrict hloose

/-- Outside of queries, the references of a planned strategy lead to names of the order. -/
theorem resolvedIn_order {s : Strategy} {strict : Bool} {p : Plan} (hp : s.Planned strict p)
    {c : Calculation} (hc : c ∈ s.calculations) (hop : c.operation ≠ .query) :
    c.ResolvedIn p.order := by
  intro o ho hkind
  obtain ⟨v, hv, hname⟩ := (exists_edges hp.named).mp ⟨_, hp.edges⟩ c hc hop o ho hkind
  exact ⟨v, hv, hp.hasName_iff.mp hname⟩

/-- After planning, an operand is all that can be wrong. -/
theorem lacks_of_compile {s : Strategy} {strict : Bool} {p : Plan} {e : StrategyError}
    (hp : s.Planned strict p) (h : p.compile s.name = .error e) :
    ∃ c ∈ s.calculations, ∃ role d, c.Lacks role ∧ e = .operand c.name (.text role) d := by
  rcases bind_eq_error.mp h with h | ⟨_, -, h⟩
  · obtain ⟨done, n, rest, heq, -, h⟩ := mapM_eq_error h
    rw [Plan.node] at h
    split at h
    · next c hc =>
      obtain ⟨hmem, -⟩ := hp.mem_named hc
      exact ⟨c, hmem, Calculation.compile_eq_error (resolvedIn_order hp hmem) h⟩
    · next hnone =>
      have hn : n ∈ p.named.map (·.1) := hp.order_perm.mem_iff.mp (heq ▸ by simp)
      obtain ⟨⟨_, c⟩, hc, rfl⟩ := List.mem_map.mp hn
      simpa using List.lookup_eq_none_iff.mp hnone _ hc
  · exact absurd h pure_ne_error

/-- A planned strategy whose calculations have the operands that they need has a graph. -/
theorem Planned.exists_graph {s : Strategy} {strict : Bool} {p : Plan} (hp : s.Planned strict p)
    (hoperands : ∀ c ∈ s.calculations, c.HasOperands) : ∃ g, s.build strict = .ok g := by
  rw [build, hp.plan_eq, ok_bind]
  cases h : p.compile s.name with
  | ok g => exact ⟨g, rfl⟩
  | error e =>
    obtain ⟨c, hc, role, d, hlacks, -⟩ := lacks_of_compile hp h
    exact absurd (hoperands c hc) hlacks.not_hasOperands

/-- What the compilation of a plan fails with is the rule on operands, the last. -/
theorem reportsFirst_of_compile {s : Strategy} {strict : Bool} {p : Plan} {e : StrategyError}
    (hs : s.TextNames) (hp : s.Planned strict p) (h : p.compile s.name = .error e) :
    s.ReportsFirst strict e := by
  obtain ⟨c, hc, role, d, hlacks, rfl⟩ := lacks_of_compile hp h
  exact ⟨.operands, .operands hc hlacks, fun hall ↦ hlacks.not_hasOperands (hall c hc),
    obeysBelow_operands hs hp⟩

/-- The calculations of a graph have the operands that they need. -/
theorem BuiltFrom.hasOperands {s : Strategy} {strict : Bool} {p : Plan} {g : Graph}
    (h : s.BuiltFrom strict p g) {c : Calculation} (hc : c ∈ s.calculations) : c.HasOperands := by
  obtain ⟨n, hn⟩ := exists_mem_named h.plan.named hc
  have hname := ((mem_named h.plan.named).mp hn).2
  have hmem : n ∈ p.order := h.plan.hasName_iff.mp ⟨c, hc, hname⟩
  have hlt := List.idxOf_lt_length_of_mem hmem
  obtain ⟨n', hn', c', hc', hname', hnode⟩ :=
    h.node_at (List.getElem?_eq_getElem (h.length_nodes ▸ hlt))
  obtain rfl : n = n' := Option.some.inj ((List.getElem?_idxOf hmem).symm.trans hn')
  exact h.plan.calculation_unique hc hc' hname hname' ▸ hnode.hasOperands

/-- A strategy that is built obeys every rule. -/
theorem obeys_of_build {s : Strategy} {strict : Bool} {g : Graph} (hs : s.TextNames)
    (h : s.build strict = .ok g) (r : Rule) : s.Obeys strict r := by
  obtain ⟨p, hp⟩ := exists_plan h
  refine ((obeysBelow_operands hs hp.plan).step .operands fun c hc ↦ hp.hasOperands hc) r ?_
  cases r <;> decide

/-- A strategy has a graph if it obeys the rules, and is refused for the first one it breaks. -/
theorem build_accepts_iff {s : Strategy} (hs : s.TextNames) (strict : Bool) :
    ((∃ g, s.build strict = .ok g) ↔ ∀ r, s.Obeys strict r) ∧
      ∀ e, s.build strict = .error e → s.ReportsFirst strict e := by
  have herror : ∀ e, s.build strict = .error e → s.ReportsFirst strict e := by
    intro e h
    rcases bind_eq_error.mp h with h | ⟨p, hp, h⟩
    · exact reportsFirst_of_planFailure hs (planFailure_of_plan h)
    · exact reportsFirst_of_compile hs (planned_of_plan hp) h
  refine ⟨⟨fun ⟨g, hg⟩ r ↦ obeys_of_build hs hg r, fun hall ↦ ?_⟩, herror⟩
  cases h : s.build strict with
  | ok g => exact ⟨g, rfl⟩
  | error e =>
    obtain ⟨r, -, hbroken, -⟩ := herror e h
    exact absurd (hall r) hbroken

theorem crossover_textNames : crossover.TextNames := by
  intro c hc
  simp only [crossover, List.mem_cons, List.not_mem_nil, or_false] at hc
  rcases hc with rfl | rfl | rfl | rfl | rfl <;> exact ⟨_, rfl⟩

theorem crossover_obeys : crossover.TextNames ∧ ∀ r, crossover.Obeys true r :=
  ⟨crossover_textNames,
    (build_accepts_iff crossover_textNames true).1.mp ⟨crossoverGraph, crossover_build⟩⟩

end Strategy

end ScorePortfolio

import ScorePortfolio.Proofs.Graph.Validity

/-!
# The part of a strategy that the score depends on

A calculation supports the score if a path of dependencies leads from it to the score.  What such a
calculation refers to supports the score as well, so the supporting calculations are a strategy by
themselves.  All its calculations hang together, and where the whole strategy has a graph at all,
this part has one under the strict rules.
-/

namespace ScorePortfolio

open Relation

namespace Strategy

/-- A path of dependencies leads from the name to the score. -/
def Supports (s : Strategy) (n : Scalar) : Prop :=
  ∃ m, s.HasName m ∧ (Doc.scalar m).same s.score = true ∧ ReflTransGen s.Depends n m

open Classical in
/-- The strategy without the calculations that do not support the score. -/
noncomputable def core (s : Strategy) : Strategy :=
  { s with calculations := s.calculations.filter fun c ↦ ∃ n, c.name = .scalar n ∧ s.Supports n }

/-- The first strategy has some of the calculations of the second, with all that they depend on. -/
structure ClosedPart (s' s : Strategy) : Prop where
  name : s'.name = s.name
  score : s'.score = s.score
  sublist : s'.calculations.Sublist s.calculations
  closed : ∀ a b, s.Depends a b → s'.HasName b → ∀ c ∈ s.calculations, c.name = .scalar a →
    c ∈ s'.calculations

/-! ## Closed parts -/

namespace ClosedPart

variable {s s' : Strategy} {strict : Bool} {p : Plan}

theorem mem (h : s'.ClosedPart s) {c : Calculation} (hc : c ∈ s'.calculations) :
    c ∈ s.calculations :=
  h.sublist.subset hc

theorem hasName (h : s'.ClosedPart s) {n : Scalar} (hn : s'.HasName n) : s.HasName n := by
  obtain ⟨c, hc, hn⟩ := hn
  exact ⟨c, h.mem hc, hn⟩

/-- What a calculation of the part depends on has its name in the part. -/
theorem hasName_of_depends (h : s'.ClosedPart s) {a b : Scalar} (hab : s.Depends a b)
    (hb : s'.HasName b) : s'.HasName a := by
  obtain ⟨c, hc, ha⟩ := hab.1
  exact ⟨c, h.closed a b hab hb c hc ha, ha⟩

/-- A part closed under references depends as the whole does, between its own names. -/
theorem depends_iff (h : s'.ClosedPart s) (hp : s.Planned strict p) {a b : Scalar} :
    s'.Depends a b ↔ s.Depends a b ∧ s'.HasName b := by
  constructor
  · rintro ⟨ha, c, hc, hb, href⟩
    exact ⟨⟨h.hasName ha, c, h.mem hc, hb, href⟩, c, hc, hb⟩
  · rintro ⟨hab, hb⟩
    have ha := h.hasName_of_depends hab hb
    obtain ⟨-, c, hc, hname, href⟩ := hab
    obtain ⟨c', hc', hname'⟩ := hb
    obtain rfl := hp.calculation_unique hc (h.mem hc') hname hname'
    exact ⟨ha, c, hc', hname, href⟩

/-- A closed part refers to no name it has lost. -/
theorem knownReferences (h : s'.ClosedPart s) (hp : s.Planned strict p) : s'.KnownReferences := by
  intro c hc hop o ho hkind
  obtain ⟨v, hv, hname⟩ :=
    (exists_edges hp.named).mp ⟨_, hp.edges⟩ c (h.mem hc) hop o ho hkind
  obtain ⟨n, hn⟩ := exists_mem_named hp.named (h.mem hc)
  have hcn := ((mem_named hp.named).mp hn).2
  refine ⟨v, hv, h.hasName_of_depends (b := n) ?_ ⟨c, hc, hcn⟩⟩
  exact ⟨hname, c, h.mem hc, hcn, o, ho, v, ⟨hkind, hv⟩, rfl⟩

/-- A closed part of a strategy without cycles has none. -/
theorem acyclic (h : s'.ClosedPart s) (hp : s.Planned strict p) (n : Scalar) :
    ¬ TransGen s'.Depends n n := by
  have hall := (Digraph.stuck_eq_nil hp.wellFormed).mp hp.acyclic n
  rw [hp.adj] at hall
  have hle : s'.Depends ≤ s.Depends := fun _ _ hab ↦ ((h.depends_iff hp).mp hab).1
  exact fun hcyc ↦ hall (TransGen.mono hle n n hcyc)

/-- A closed part that has the score and hangs together has a plan, which is that of the strategy as
far as the score goes. -/
theorem exists_planned (h : s'.ClosedPart s) (hp : s.Planned strict p)
    (hscore : s'.HasName p.score)
    (hlinked : ∀ a b, s'.HasName a → s'.HasName b → s'.Linked a b) :
    ∃ p', s'.Planned true p' := by
  obtain ⟨named, hnamed, hsub⟩ := mapM_sublist h.sublist hp.named
  have hdistinct : (named.map (·.1.key)).Nodup := hp.distinct.sublist (hsub.map _)
  have hmem : p.score ∈ named.map (·.1) := (hasName_iff hnamed).mp hscore
  obtain ⟨score, hfound⟩ : ∃ score, s'.scoreIn? named = some score := by
    refine Option.isSome_iff_exists.mp (List.find?_isSome.mpr ⟨p.score, hmem, ?_⟩)
    exact h.score ▸ (scoreIn?_eq_some hp.score).2
  obtain ⟨edges, hedges⟩ := (exists_edges hnamed).mpr (h.knownReferences hp)
  have hwf := digraph_wellFormed hdistinct hedges rfl
  have hone : (Digraph.components ⟨named.map (·.1), edges⟩ : List (List Scalar)).length = 1 := by
    rw [Digraph.components_length_eq_one hwf (List.ne_nil_of_mem hmem)]
    intro a ha b hb
    rw [digraph_linked hnamed hedges rfl]
    exact hlinked a b ((hasName_iff hnamed).mpr ha) ((hasName_iff hnamed).mpr hb)
  refine ⟨⟨named, score, edges, Digraph.order ⟨named.map (·.1), edges⟩, none⟩, ?_, hnamed,
    hdistinct, hfound, hedges, ?_, rfl, looseness?_eq_none.mpr hone, fun _ ↦ rfl⟩
  · obtain ⟨c, hc, -⟩ := hscore
    exact List.ne_nil_of_mem hc
  · refine (Digraph.stuck_eq_nil hwf).mpr ?_
    rw [digraph_adj hnamed hedges rfl]
    exact h.acyclic hp

/-- A closed part that can be planned can be built, as its calculations compile in the whole. -/
theorem exists_build (h : s'.ClosedPart s) {g : Graph} (hg : s.BuiltFrom strict p g)
    {p' : Plan} (hp' : s'.Planned true p') : ∃ g', s'.build true = .ok g' := by
  cases hcomp : p'.compile s'.name with
  | ok g' => exact ⟨g', bind_eq_ok.mpr ⟨p', hp'.plan_eq, hcomp⟩⟩
  | error e =>
    obtain ⟨c, hc, role, d, hlacks, -⟩ := lacks_of_compile hp' hcomp
    exact absurd (hg.hasOperands (h.mem hc)) hlacks.not_hasOperands

end ClosedPart

/-! ## The core -/

section Core

variable {s : Strategy} {strict : Bool} {p : Plan}

theorem mem_core {c : Calculation} :
    c ∈ s.core.calculations ↔ c ∈ s.calculations ∧ ∃ n, c.name = .scalar n ∧ s.Supports n := by
  simp [core]

/-- The core keeps the names that support the score. -/
theorem hasName_core {n : Scalar} : s.core.HasName n ↔ s.HasName n ∧ s.Supports n := by
  simp only [HasName, mem_core]
  constructor
  · rintro ⟨c, ⟨hc, m, hm, hsup⟩, hn⟩
    obtain rfl := Doc.scalar.inj (hm.symm.trans hn)
    exact ⟨⟨c, hc, hn⟩, hsup⟩
  · rintro ⟨⟨c, hc, hn⟩, hsup⟩
    exact ⟨c, ⟨hc, n, hn, hsup⟩, hn⟩

/-- What a supporting calculation depends on supports the score as well. -/
theorem Supports.of_depends {a b : Scalar} (hab : s.Depends a b) (hb : s.Supports b) :
    s.Supports a := by
  obtain ⟨m, hm, hsame, hpath⟩ := hb
  exact ⟨m, hm, hsame, .head hab hpath⟩

/-- What supports the score is closed under references. -/
theorem closedPart_core : s.core.ClosedPart s where
  name := rfl
  score := rfl
  sublist := List.filter_sublist
  closed _ _ hab hb _ hc ha := mem_core.mpr ⟨hc, _, ha, .of_depends hab (hasName_core.mp hb).2⟩

theorem hasName_core_score (hp : s.Planned strict p) : s.core.HasName p.score := by
  have hname := hp.hasName_iff.mpr hp.score_mem
  exact hasName_core.mpr ⟨hname, p.score, hname, (scoreIn?_eq_some hp.score).2, .refl⟩

/-- A path of dependencies to the score stays in the core. -/
theorem linked_core_score (hp : s.Planned strict p) {n : Scalar} (hn : s.core.HasName n) :
    s.core.Linked n p.score := by
  obtain ⟨-, m, hm, hsame, hpath⟩ := hasName_core.mp hn
  obtain rfl := hp.eq_score hm hsame
  clear hn
  induction hpath using ReflTransGen.head_induction_on with
  | refl => exact .refl
  | @head a b hab hpath ih =>
    have hb : s.core.HasName b := by
      obtain ⟨-, c, hc, hname, -⟩ := hab
      exact hasName_core.mpr ⟨⟨c, hc, hname⟩, p.score, hm, hsame, hpath⟩
    exact .head (.inl ((closedPart_core.depends_iff hp).mpr ⟨hab, hb⟩)) ih

/-- All names of the core hang together, by way of the score. -/
theorem linked_core (hp : s.Planned strict p) {a b : Scalar} (ha : s.core.HasName a)
    (hb : s.core.HasName b) : s.core.Linked a b :=
  (linked_core_score hp ha).trans (linked_core_score hp hb).symm

end Core

end Strategy

end ScorePortfolio

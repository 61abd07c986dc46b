import ScorePortfolio.Proofs.Graph.Core
import ScorePortfolio.Proofs.Graph.WellFormed
import ScorePortfolio.Proofs.Evaluation.ByName

/-!
# The score depends on its core alone

The calculations of a closed part mean the same in the part as in the whole strategy.  So the core
of a strategy has the outputs of the whole one, as far as they are outputs of the core, and the same
score.
-/

namespace ScorePortfolio

theorem Calculation.HasReference.refers {c : Calculation} {role v : String}
    (h : c.HasReference role) (hv : c.literal? role = some v) : c.Refers role v := by
  obtain ⟨o, ho, hkind⟩ := h
  rw [literal?, ho, Option.bind_some] at hv
  exact ⟨o, ho, hkind, hv⟩

namespace Strategy

variable {α : Type} [Quantity α] {s s' : Strategy} {strict : Bool} {p : Plan} {client : Client α}
  {asset : Asset} {t : Option Instant}

namespace ClosedPart

/-- What a calculation means in a closed part it means in the whole. -/
theorem means_whole (h : s'.ClosedPart s) {c : Calculation} {x : Series α}
    (hx : s'.Means client asset t c x) : s.Means client asset t c x := by
  induction hx with
  | query hop hq => exact .query hop hq
  | scalar hop hv hsrc hname _ hk hy hx ih =>
    exact .scalar hop hv (h.mem hsrc) hname ih hk hy hx
  | series hop hv hl hln _ hw hr hrn _ hx ihl ihr =>
    exact .series hop hv (h.mem hl) hln ihl hw (h.mem hr) hrn ihr hx
  | sma hop hv hsrc hname _ hk hw hx ih => exact .sma hop hv (h.mem hsrc) hname ih hk hw hx

/-- A calculation that one of the part refers to is in the part. -/
theorem mem_of_refers (h : s'.ClosedPart s) (hp : s.Planned strict p) {c : Calculation}
    (hc : c ∈ s'.calculations) {role v : String} (href : c.Refers role v) {src : Calculation}
    (hsrc : src ∈ s.calculations) (hname : src.name = .text v) : src ∈ s'.calculations := by
  obtain ⟨n, hn⟩ := exists_mem_named hp.named (h.mem hc)
  have hcn := ((mem_named hp.named).mp hn).2
  have hmem : .text v ∈ p.order := hp.hasName_iff.mp ⟨src, hsrc, hname⟩
  exact h.closed _ n (hp.depends (h.mem hc) hcn href.exists_mem hmem) ⟨c, hc, hcn⟩ src hsrc hname

/-- A calculation of the part needs nothing but the part. -/
theorem means (h : s'.ClosedPart s) {g : Graph} (hg : s.BuiltFrom strict p g) {c : Calculation}
    (hc : c ∈ s'.calculations) {x : Series α} (hx : s.Means client asset t c x) :
    s'.Means client asset t c x := by
  have hops {c} (hc : c ∈ s'.calculations) : c.HasOperands := hg.hasOperands (h.mem hc)
  induction hx with
  | query hop hq => exact .query hop hq
  | @scalar c _ _ _ _ _ _ _ hop hv hsrc hname _ hk hy hx ih =>
    have hneeds := hops hc
    rw [Calculation.HasOperands, hop] at hneeds
    have hsrc' := h.mem_of_refers hg.plan hc (hneeds.1.refers hv) hsrc hname
    exact .scalar hop hv hsrc' hname (ih hsrc') hk hy hx
  | @series c _ _ _ _ _ _ _ _ hop hv hl hln _ hw hr hrn _ hx ihl ihr =>
    have hneeds := hops hc
    rw [Calculation.HasOperands, hop] at hneeds
    have hl' := h.mem_of_refers hg.plan hc (hneeds.1.refers hv) hl hln
    have hr' := h.mem_of_refers hg.plan hc (hneeds.2.refers hw) hr hrn
    exact .series hop hv hl' hln (ihl hl') hw hr' hrn (ihr hr') hx
  | @sma c _ _ _ _ _ _ hop hv hsrc hname _ hk hw hx ih =>
    have hneeds := hops hc
    rw [Calculation.HasOperands, hop] at hneeds
    have hsrc' := h.mem_of_refers hg.plan hc (hneeds.1.refers hv) hsrc hname
    exact .sma hop hv hsrc' hname (ih hsrc') hk hw hx

/-- The names of the part mean what they mean in the whole strategy. -/
theorem nameMeans_iff (h : s'.ClosedPart s) {g : Graph} (hg : s.BuiltFrom strict p g) {n : Scalar}
    {x : Series α} :
    s'.NameMeans client asset t n x ↔ s'.HasName n ∧ s.NameMeans client asset t n x := by
  constructor
  · intro hx
    obtain ⟨c, hc, hn, hmeans⟩ := hx
    exact ⟨⟨c, hc, hn⟩, c, h.mem hc, hn, h.means_whole hmeans⟩
  · rintro ⟨⟨c, hc, hn⟩, hx⟩
    have hmeans := (Strategy.nameMeans_iff hg.plan (h.mem hc) hn).mp hx
    exact ⟨c, hc, hn, h.means hg hc hmeans⟩

end ClosedPart

/-- Without strictness, calculations that do not support the score change nothing about it: the core
is accepted under the strict rules, and has the score and the outputs of the whole strategy. -/
theorem build_core {g : Graph} (h : s.build false = .ok g) :
    ∃ g', s.core.build true = .ok g' ∧
      ∀ (α : Type) [Quantity α] (client : Client α) (asset : Asset) (t : Option Instant),
        ∀ r, (g.evaluate client asset t).result = .ok r →
          ∃ r', (g'.evaluate client asset t).result = .ok r' ∧ r'.score = r.score ∧
            ∀ n x, (n, x) ∈ r'.outputs ↔ s.core.HasName n ∧ (n, x) ∈ r.outputs := by
  obtain ⟨p, hg⟩ := exists_plan h
  have hpart := closedPart_core (s := s)
  obtain ⟨p₀, hp₀⟩ := hpart.exists_planned hg.plan (hasName_core_score hg.plan)
    fun _ _ ↦ linked_core hg.plan
  obtain ⟨g', hbuild⟩ := hpart.exists_build hg hp₀
  obtain ⟨p', hg'⟩ := exists_plan hbuild
  refine ⟨g', hbuild, ?_⟩
  intro α _ client asset t r hr
  have hnames {n : Scalar} {x : Series α} : s.core.NameMeans client asset t n x ↔
      s.core.HasName n ∧ s.NameMeans client asset t n x := hpart.nameMeans_iff hg
  have hall : ∀ n, s.core.HasName n → ∃ x, s.core.NameMeans client asset t n x := by
    intro n hn
    obtain ⟨x, hx⟩ := (evaluate_iff_names hg).mp ⟨r, hr⟩ n (hpart.hasName hn)
    exact ⟨x, hnames.mpr ⟨hn, hx⟩⟩
  obtain ⟨r', hr'⟩ := (evaluate_iff_names hg').mpr hall
  refine ⟨r', hr', ?_, ?_⟩
  · obtain ⟨hname, hscore⟩ := hnames.mp (score_means hg' hr')
    rw [hg.plan.eq_score (hpart.hasName hname) (scoreIn?_eq_some hg'.plan.score).2] at hscore
    exact hscore.unique hg.plan (score_means hg hr)
  · intro n x
    rw [mem_outputs hg' hr', mem_outputs hg hr]
    exact hnames

end Strategy

/-! ## The crossover beside an idle query -/

/-- The crossover with a query that nothing reads. -/
def idleCrossover : Strategy :=
  { crossover with calculations := ⟨.text "idle", .query, []⟩ :: crossover.calculations }

/-- The query keeps the strategy from being built strictly.  It is not in the core, which is built
and has the score of the whole. -/
theorem idleCrossover_evaluate :
    idleCrossover.build true =
      .error (.invalid (.text "crossover") (.disconnected 2 [.text "idle"])) ∧
    ¬ idleCrossover.core.HasName (.text "idle") ∧
    ∃ g g', idleCrossover.build false = .ok g ∧ idleCrossover.core.build true = .ok g' ∧
      ∃ r r' : AssetScore Rat, (g.evaluate fourPrices ⟨"A"⟩ (some ⟨4⟩)).result = .ok r ∧
        (g'.evaluate fourPrices ⟨"A"⟩ (some ⟨4⟩)).result = .ok r' ∧ r'.score = r.score := by
  obtain ⟨g, hbuild, hedges, hok⟩ : ∃ g, idleCrossover.build false = .ok g ∧
      (∀ e ∈ g.edges, e.1 ≠ .text "idle") ∧
      (g.evaluate fourPrices ⟨"A"⟩ (some ⟨4⟩)).result.isOk = true :=
    ⟨_, rfl, by decide, by decide +kernel⟩
  obtain ⟨p, hg⟩ := Strategy.exists_plan hbuild
  refine ⟨rfl, fun hname ↦ ?_, ?_⟩
  · obtain ⟨-, m, -, hsame, hpath⟩ := Strategy.hasName_core.mp hname
    rcases Relation.ReflTransGen.cases_head hpath with rfl | ⟨b, hdep, -⟩
    · exact absurd hsame (by decide)
    · exact hedges _ (hg.mem_edges.mpr hdep) rfl
  · obtain ⟨g', hbuild', hcore⟩ := Strategy.build_core hbuild
    cases hr : (g.evaluate fourPrices ⟨"A"⟩ (some ⟨4⟩)).result with
    | ok r =>
      obtain ⟨r', hr', hscore, -⟩ := hcore Rat fourPrices ⟨"A"⟩ (some ⟨4⟩) r hr
      exact ⟨g, g', hbuild, hbuild', r, r', hr, hr', hscore⟩
    | error e => cases hr ▸ hok

end ScorePortfolio

import ScorePortfolio.Proofs.Graph.Cycles

/-!
# What is reported of cycles and of parts

Where the names, the score and the references of a strategy are in order, building looks at the
digraph of its dependencies, first for cycles and then for parts that do not hang together.  What it
reports is exact.  A cycle is reported if there is one, with the calculations on cycles and those
that depend on one, directly or through others; calculations that only lead to a cycle are not
reported.  Parts are reported if there are several, with their number and the calculations out of
reach of the score; they end the building if that is asked for, and otherwise are of no consequence.
-/

namespace ScorePortfolio

open Relation

theorem shownNames_text (texts : List String) :
    shownNames (texts.map .text) = Text.quotedList texts := by
  rw [shownNames, Text.quotedList, List.map_map]
  rfl

theorem StrategyDefect.text_cycle (texts : List String) :
    (cycle (texts.map .text)).text = "cyclic dependency among " ++ Text.quotedList texts := by
  rw [← shownNames_text]
  rfl

namespace Strategy

/-! ## Names, score and references -/

/-- What the strategy has when its names, its score and its references are in order. -/
structure Checked (s : Strategy) (named : List (Scalar × Calculation)) (score : Scalar)
    (edges : List (Scalar × Scalar)) : Prop where
  distinct : s.distinctlyNamed = .ok named
  hasScore : s.scoreIn? named = some score
  collected : collectEdges s.name named = .ok edges

variable {s : Strategy} {strict : Bool} {named : List (Scalar × Calculation)} {score : Scalar}
  {edges : List (Scalar × Scalar)} {g : Digraph Scalar}

/-- A strategy that obeys every rule before the one on cycles has got as far as its edges. -/
theorem exists_checked (hs : s.TextNames) (h : s.ObeysBelow strict Rule.acyclic.rank) :
    ∃ named score edges, s.Checked named score edges := by
  have hcalculations : s.calculations ≠ [] := h .calculations (by decide)
  have hdistinct : (s.calculations.map (·.name)).Nodup := h .distinctNames (by decide)
  have hscore : s.score ∈ s.calculations.map (·.name) := h .score (by decide)
  have hreferences : s.KnownReferences := h .references (by decide)
  obtain ⟨texts, htexts⟩ := hs.exists_texts
  obtain ⟨named, hnamed, -⟩ := exists_named htexts
  obtain ⟨score, hfound⟩ : ∃ score, s.scoreIn? named = some score :=
    Option.ne_none_iff_exists'.mp fun hnone ↦ (scoreIn?_eq_none hs hnamed).mp hnone hscore
  obtain ⟨edges, hedges⟩ := (exists_edges hnamed).mpr hreferences
  refine ⟨named, score, edges, ?_, hfound, hedges⟩
  exact distinctlyNamed_eq_ok.mpr ⟨hcalculations, hnamed, (nodup_names hs hnamed).mpr hdistinct⟩

namespace Checked

variable (h : s.Checked named score edges) (hg : g = ⟨named.map (·.1), edges⟩)

include h

theorem named_eq : s.named = .ok named := (distinctlyNamed_eq_ok.mp h.distinct).2.1

theorem map_name : s.calculations.map (·.name) = (named.map (·.1)).map Doc.scalar := by
  obtain ⟨hcalcs, hnames⟩ := named_eq_ok.mp h.named_eq
  rw [hcalcs, List.map_map, List.map_map]
  exact List.map_congr_left hnames

include hg

theorem wellFormed : g.WellFormed :=
  digraph_wellFormed (distinctlyNamed_eq_ok.mp h.distinct).2.2 h.collected hg

theorem adj : g.Adj = s.Depends := digraph_adj h.named_eq h.collected hg

theorem linked : g.Linked = s.Linked := digraph_linked h.named_eq h.collected hg

theorem mem_vertices {n : Scalar} : n ∈ g.vertices ↔ s.HasName n := by
  rw [hasName_iff h.named_eq, hg]

theorem stuck_eq_nil : g.stuck = [] ↔ ∀ n, ¬ TransGen s.Depends n n := by
  rw [Digraph.stuck_eq_nil (h.wellFormed hg), h.adj hg]

/-- All that is left to do is to look at the digraph. -/
theorem plan_eq (strict : Bool) : s.plan strict =
    if !g.stuck.isEmpty then throw (.invalid s.name (.cycle g.stuck))
    else do
      let loose ← looseness? g score
      match strict, loose with
      | true, some l => throw (.invalid s.name (.disconnected l.count l.orphans))
      | _, _ => return ⟨named, score, edges, g.order, loose⟩ := by
  have hscore := h.hasScore
  rw [scoreIn?] at hscore
  rw [plan, h.distinct, ok_bind]
  simp only [hscore]
  rw [h.collected, ok_bind, ← hg]
  rfl

end Checked

/-! ## Cycles -/

/-- The calculation is on a cycle of dependencies, or after one. -/
def BehindCycle (s : Strategy) (n : Scalar) : Prop :=
  ∃ m, TransGen s.Depends m m ∧ ReflTransGen s.Depends m n

/-- What cannot be ordered are the calculations behind cycles, in the order of the document. -/
theorem Checked.exists_stuck (hs : s.TextNames) (h : s.Checked named score edges)
    (hg : g = ⟨named.map (·.1), edges⟩) :
    ∃ found : List String, g.stuck = found.map .text ∧
      (found.map Doc.text).Sublist (s.calculations.map (·.name)) ∧ found.Nodup ∧
      ∀ t, t ∈ found ↔ s.HasName (.text t) ∧ s.BehindCycle (.text t) := by
  obtain ⟨texts, htexts⟩ := exists_vertices hs h.named_eq hg
  have hstuck : g.stuck = (texts.filter fun t ↦ Scalar.text t ∉ g.order).map .text := by
    rw [Digraph.stuck, htexts, List.filter_map]
    rfl
  have hnames : s.calculations.map (·.name) = texts.map Doc.text := by
    calc s.calculations.map (·.name) = g.vertices.map Doc.scalar := by rw [h.map_name, hg]
      _ = texts.map Doc.text := by rw [htexts, List.map_map]; rfl
  have hnodup : texts.Nodup := nodup_map_text.mp (htexts ▸ (h.wellFormed hg).vertices_nodup)
  refine ⟨_, hstuck, ?_, hnodup.filter _, fun t ↦ ?_⟩
  · rw [hnames]
    exact List.filter_sublist.map _
  · rw [← List.mem_map_of_injective (f := Scalar.text) fun _ _ h ↦ Scalar.text.inj h, ← hstuck,
      Digraph.mem_stuck (h.wellFormed hg), h.mem_vertices hg, h.adj hg, BehindCycle]

/-- A cycle is reported if there is one.  The report names the calculations on cycles and those
behind them, each once and in the order of the document, and no others. -/
theorem build_reports_cycle (hs : s.TextNames) (h : s.ObeysBelow strict Rule.acyclic.rank) :
    ((∃ d names, s.build strict = .error (.invalid d (.cycle names))) ↔
        ∃ n, TransGen s.Depends n n) ∧
      ∀ d names, s.build strict = .error (.invalid d (.cycle names)) →
        d = s.name ∧ ∃ found : List String, names = found.map .text ∧
          (StrategyDefect.cycle names).text =
            "cyclic dependency among " ++ Text.quotedList found ∧
          (found.map Doc.text).Sublist (s.calculations.map (·.name)) ∧ found.Nodup ∧
          ∀ t, t ∈ found ↔ s.HasName (.text t) ∧ s.BehindCycle (.text t) := by
  obtain ⟨named, score, edges, hchecked⟩ := exists_checked hs h
  obtain ⟨g, hg⟩ : ∃ g : Digraph Scalar, g = ⟨named.map (·.1), edges⟩ := ⟨_, rfl⟩
  have hreport (hstuck : g.stuck ≠ []) :
      s.build strict = .error (.invalid s.name (.cycle g.stuck)) := by
    rw [build, hchecked.plan_eq hg strict, if_pos (by simpa using hstuck)]
    rfl
  have hcycle {d names} (hbuild : s.build strict = .error (.invalid d (.cycle names))) :
      g.stuck ≠ [] := by
    obtain ⟨_, g', -, -, hwf, hadj, hstuck, -⟩ := build_eq_cycle hbuild
    rwa [Ne, hchecked.stuck_eq_nil hg, ← hadj, ← Digraph.stuck_eq_nil hwf]
  constructor
  · constructor
    · rintro ⟨d, names, hbuild⟩
      have hstuck := hcycle hbuild
      rw [Ne, hchecked.stuck_eq_nil hg] at hstuck
      push Not at hstuck
      exact hstuck
    · rintro ⟨n, hn⟩
      exact ⟨_, _, hreport fun hnil ↦ (hchecked.stuck_eq_nil hg).mp hnil n hn⟩
  · intro d names hbuild
    obtain ⟨found, hfound, hsub, hnodup, hmem⟩ := hchecked.exists_stuck hs hg
    have heq := (hreport (hcycle hbuild)).symm.trans hbuild
    simp only [Except.error.injEq, StrategyError.invalid.injEq, StrategyDefect.cycle.injEq] at heq
    obtain ⟨rfl, rfl⟩ := heq
    exact ⟨rfl, found, hfound, hfound ▸ StrategyDefect.text_cycle found, hsub, hnodup, hmem⟩

/-- Two sums that read each other, with an average behind them and one beside them. -/
def entangled : Strategy where
  name := .text "entangled"
  score := .text "aside"
  calculations := [
    ⟨.text "after", .sma,
      [⟨.text "time_series", .reference, "right"⟩, ⟨.text "window_size", .integer, "2"⟩]⟩,
    ⟨.text "left", .series .add,
      [⟨.text "left", .reference, "price"⟩, ⟨.text "right", .reference, "right"⟩]⟩,
    ⟨.text "price", .query, [⟨.text "field", .text, "close"⟩]⟩,
    ⟨.text "aside", .sma,
      [⟨.text "time_series", .reference, "price"⟩, ⟨.text "window_size", .integer, "2"⟩]⟩,
    ⟨.text "right", .series .add,
      [⟨.text "left", .reference, "left"⟩, ⟨.text "right", .reference, "price"⟩]⟩]

theorem entangled_textNames : entangled.TextNames := by
  intro c hc
  simp only [entangled, List.mem_cons, List.not_mem_nil, or_false] at hc
  rcases hc with rfl | rfl | rfl | rfl | rfl <;> exact ⟨_, rfl⟩

theorem entangled_obeysBelow : entangled.ObeysBelow true Rule.acyclic.rank :=
  obeysBelow_acyclic entangled_textNames rfl rfl rfl

/-- The average behind the sums is reported with them, what they read is not. -/
theorem entangled_cycle : entangled.TextNames ∧ entangled.ObeysBelow true Rule.acyclic.rank ∧
    (∃ n, TransGen entangled.Depends n n) ∧
    ∀ t, t ∈ ["after", "left", "right"] ↔
      entangled.HasName (.text t) ∧ entangled.BehindCycle (.text t) := by
  have hbuild : entangled.build true = .error (.invalid (.text "entangled")
      (.cycle (["after", "left", "right"].map .text))) := rfl
  obtain ⟨hiff, hreport⟩ := build_reports_cycle entangled_textNames entangled_obeysBelow
  obtain ⟨-, found, hfound, -, -, -, hmem⟩ := hreport _ _ hbuild
  obtain rfl := List.map_injective_iff.mpr (fun _ _ h ↦ Scalar.text.inj h) hfound
  exact ⟨entangled_textNames, entangled_obeysBelow, hiff.mp ⟨_, _, hbuild⟩, hmem⟩

/-! ## Parts -/

/-- Calculations belong together if a path of dependencies joins them, whatever its directions. -/
def together (s : Strategy) : Setoid {n // s.HasName n} where
  r a b := s.Linked a.1 b.1
  iseqv := ⟨fun _ ↦ .refl, Linked.symm, ReflTransGen.trans⟩

/-- The number of parts that the calculations fall into. -/
noncomputable def partCount (s : Strategy) : ℕ := Nat.card (Quotient s.together)

/-- The record of a graph, if it is finished. -/
def finished : Except StrategyError Graph → List Record
  | .ok g => [g.record]
  | .error _ => []

theorem record_texts (count : ℕ) (orphans : List String) (d : Doc) :
    Looseness.record ⟨count, orphans.map .text⟩ d =
      ⟨.warning, s!"Strategy '{d.asText}' has {count} connected components; " ++
        s!"orphan calculations {Text.quotedList orphans}"⟩ := by
  rw [← shownNames_text]
  rfl

/-- The graph of a plan does not depend on the parts. -/
theorem compile_looseness (p : Plan) (loose : Option Looseness) (d : Doc) :
    ({ p with looseness := loose } : Plan).compile d = p.compile d := rfl

/-- The components counted are the parts of the strategy. -/
theorem Checked.length_components (h : s.Checked named score edges)
    (hg : g = ⟨named.map (·.1), edges⟩) : g.components.length = s.partCount := by
  refine (Digraph.card_quotient (h.wellFormed hg) (fun n ↦ (h.mem_vertices hg).symm) s.together
    fun a b ↦ ?_).symm
  rw [h.linked hg]
  rfl

/-- If there are several parts, those that the score is not in are known by their names. -/
theorem Checked.exists_looseness (hs : s.TextNames) (h : s.Checked named score edges)
    (hg : g = ⟨named.map (·.1), edges⟩) (hparts : s.partCount ≠ 1) :
    ∃ (t : String) (orphans : List String), s.score = .text t ∧
      looseness? g score = .ok (some ⟨s.partCount, orphans.map .text⟩) ∧
      orphans.Pairwise (· < ·) ∧
      ∀ u, u ∈ orphans ↔ s.HasName (.text u) ∧ ¬ s.Linked (.text t) (.text u) := by
  obtain ⟨texts, htexts⟩ := exists_vertices hs h.named_eq hg
  obtain ⟨hmem, hsame⟩ := scoreIn?_eq_some h.hasScore
  have hvertex : score ∈ g.vertices := hg ▸ hmem
  obtain ⟨t, -, rfl⟩ := List.mem_map.mp (htexts ▸ hvertex)
  rw [← h.length_components hg] at hparts ⊢
  obtain ⟨orphans, hloose, hsorted, horphans⟩ :=
    looseness?_text (h.wellFormed hg) htexts hvertex hparts
  refine ⟨t, orphans, same_docText.mp hsame, hloose, hsorted, fun u ↦ ?_⟩
  rw [horphans, h.mem_vertices hg, h.linked hg]

/-- Nothing is reported if the calculations hang together.  Otherwise their parts are counted, and
the calculations out of reach of the score are listed in order.  This ends the building if it is
asked for; if not, it goes into the records, and the graph is what it would have been. -/
theorem build_reports_parts (hs : s.TextNames) (h : s.ObeysBelow strict Rule.connected.rank) :
    ∃ p built, s.plan false = .ok p ∧
      ({ p with looseness := none } : Plan).compile s.name = built ∧ s.build false = built ∧
      (s.partCount = 1 → s.build true = built ∧
        ∀ strict, s.buildRecords strict = finished built) ∧
      (s.partCount ≠ 1 → ∃ (t : String) (orphans : List String), s.score = .text t ∧
        orphans.Pairwise (· < ·) ∧
        (∀ u, u ∈ orphans ↔ s.HasName (.text u) ∧ ¬ s.Linked (.text t) (.text u)) ∧
        s.build true =
          .error (.invalid s.name (.disconnected s.partCount (orphans.map .text))) ∧
        s.buildRecords true = [] ∧
        s.buildRecords false = ⟨.warning,
          s!"Strategy '{s.name.asText}' has {s.partCount} connected components; " ++
            s!"orphan calculations {Text.quotedList orphans}"⟩ :: finished built) := by
  have hbelow : s.ObeysBelow strict Rule.acyclic.rank := fun r hr ↦ h r (Nat.lt_succ_of_lt hr)
  have hacyclic : ∀ n, ¬ TransGen s.Depends n n := h .acyclic (by decide)
  obtain ⟨named, score, edges, hchecked⟩ := exists_checked hs hbelow
  obtain ⟨g, hg⟩ : ∃ g : Digraph Scalar, g = ⟨named.map (·.1), edges⟩ := ⟨_, rfl⟩
  have hstuck := (hchecked.stuck_eq_nil hg).mpr hacyclic
  have hplan := hchecked.plan_eq hg
  simp only [hstuck, List.isEmpty_nil, Bool.not_true, Bool.false_eq_true, if_false] at hplan
  have hbuild {strict p} (hp : s.plan strict = .ok p) : s.build strict = p.compile s.name := by
    rw [build, hp, ok_bind]
  have hrecords {strict p} (hp : s.plan strict = .ok p) : s.buildRecords strict =
      (p.looseness.map (·.record s.name)).toList ++ finished (p.compile s.name) := by
    rw [buildRecords, hp]
    rfl
  by_cases hparts : s.partCount = 1
  · have hloose : looseness? g score = .ok none :=
      looseness?_eq_none.mpr ((hchecked.length_components hg).trans hparts)
    have hok (strict : Bool) : s.plan strict = .ok ⟨named, score, edges, g.order, none⟩ := by
      rw [hplan, hloose]
      cases strict <;> rfl
    refine ⟨_, _, hok false, compile_looseness _ _ _, hbuild (hok false), fun _ ↦ ?_,
      fun hne ↦ absurd hparts hne⟩
    exact ⟨hbuild (hok true), fun strict ↦ hrecords (hok strict)⟩
  · obtain ⟨t, orphans, hscore, hloose, hsorted, hmem⟩ := hchecked.exists_looseness hs hg hparts
    have hok : s.plan false = .ok ⟨named, score, edges, g.order,
        some ⟨s.partCount, orphans.map .text⟩⟩ := by
      rw [hplan, hloose]
      rfl
    have herror : s.plan true =
        .error (.invalid s.name (.disconnected s.partCount (orphans.map .text))) := by
      rw [hplan, hloose]
      rfl
    refine ⟨_, _, hok, compile_looseness _ _ _, hbuild hok, fun hone ↦ absurd hone hparts,
      fun _ ↦ ⟨t, orphans, hscore, hsorted, hmem, ?_, ?_, ?_⟩⟩
    · rw [build, herror]
      rfl
    · rw [buildRecords, herror]
    · rw [hrecords hok, Option.map_some, record_texts]
      rfl

/-- A price with its average, and a volume with its average, which the score does not read. -/
def detached : Strategy where
  name := .text "detached"
  score := .text "mean"
  calculations := [
    ⟨.text "volume", .query, [⟨.text "field", .text, "volume"⟩]⟩,
    ⟨.text "mean", .sma,
      [⟨.text "time_series", .reference, "price"⟩, ⟨.text "window_size", .integer, "2"⟩]⟩,
    ⟨.text "turnover", .sma,
      [⟨.text "time_series", .reference, "volume"⟩, ⟨.text "window_size", .integer, "2"⟩]⟩,
    ⟨.text "price", .query, [⟨.text "field", .text, "close"⟩]⟩]

theorem detached_textNames : detached.TextNames := by
  intro c hc
  simp only [detached, List.mem_cons, List.not_mem_nil, or_false] at hc
  rcases hc with rfl | rfl | rfl | rfl <;> exact ⟨_, rfl⟩

theorem detached_obeysBelow : detached.ObeysBelow false Rule.connected.rank :=
  obeysBelow_connected detached_textNames rfl rfl rfl rfl rfl

theorem detached_checked : ∃ named edges, detached.Checked named (.text "mean") edges ∧
    (Digraph.components ⟨named.map (·.1), edges⟩ : List (List Scalar)).length = 2 :=
  ⟨_, _, ⟨rfl, rfl, rfl⟩, rfl⟩

/-- The strategy with a detached pair is refused strictly, with the two names it leaves over in
order. -/
theorem detached_build : detached.build true = .error (.invalid (.text "detached")
    (.disconnected 2 (["turnover", "volume"].map .text))) := by
  have hchecked : detached.Checked _ (.text "mean") _ := ⟨rfl, rfl, rfl⟩
  have hsorted : sortNames (["volume", "turnover"].map .text) =
      .ok (["turnover", "volume"].map .text) := by
    rw [sortNames_text]
    simp [List.mergeSort, List.MergeSort.Internal.splitInTwo]
  rw [build, hchecked.plan_eq rfl]
  show (sortNames (["volume", "turnover"].map .text) >>= _) >>= _ >>= _ = _
  rw [hsorted]
  rfl

/-- There are two parts, and the two calculations of one of them are out of reach of the score. -/
theorem detached_parts : detached.TextNames ∧
    detached.ObeysBelow false Rule.connected.rank ∧ detached.partCount = 2 ∧
    ∀ t, t ∈ ["turnover", "volume"] ↔
      detached.HasName (.text t) ∧ ¬ detached.Linked (.text "mean") (.text t) := by
  obtain ⟨named, edges, hchecked, hcomponents⟩ := detached_checked
  have hcount : detached.partCount = 2 := (hchecked.length_components rfl).symm.trans hcomponents
  obtain ⟨_, _, -, -, -, -, hparts⟩ :=
    build_reports_parts detached_textNames detached_obeysBelow
  obtain ⟨t, orphans, hscore, -, hmem, herror, -⟩ := hparts (by rw [hcount]; decide)
  obtain rfl : "mean" = t := Scalar.text.inj (Doc.scalar.inj hscore)
  have heq := detached_build.symm.trans herror
  simp only [Except.error.injEq, StrategyError.invalid.injEq, StrategyDefect.disconnected.injEq]
    at heq
  obtain ⟨-, -, heq⟩ := heq
  obtain rfl := List.map_injective_iff.mpr (fun _ _ h ↦ Scalar.text.inj h) heq
  exact ⟨detached_textNames, detached_obeysBelow, hcount, hmem⟩

end Strategy

end ScorePortfolio

import ScorePortfolio.Proofs.Portfolio.FiniteWeights
import ScorePortfolio.Proofs.Portfolio.Outcome
import ScorePortfolio.Market.TableClient

/-!
# Scores that are no finite numbers

Negative scores are set to zero before it is checked that the scores are finite.  The check finds
what is not a number and positive infinity, and reports the first asset that has one; negative
infinity has become zero by then, and its asset gets no weight like that of any negative score.
-/

namespace ScorePortfolio

namespace Binary

/-- A total of terms that are not negative is not negative. -/
theorem isNegative_total {xs : List Float} (hxs : ∀ x ∈ xs, x.isFinite = true ∧ 0 ≤ units x)
    {t : Float} (h : total xs = .ok t) : isNegative t = false := by
  obtain ⟨rfl, -⟩ := totalFrom_eq_ok (fun x hx ↦ (hxs x hx).1) (by decide) h
  have hsum : 0 ≤ (xs.map units).sum := by
    refine List.sum_nonneg fun n hn ↦ ?_
    obtain ⟨x, hx, rfl⟩ := List.mem_map.mp hn
    exact (hxs x hx).2
  rw [ofUnits, isNegative_ofBits, zero_add]
  exact decide_eq_false hsum.not_gt

/-- Zero has no share in a positive double. -/
theorem zero_div_eq {x : Float} (hx : x.isFinite = true) (hneg : isNegative x = false)
    (hzero : Quantity.eq x Quantity.zero = false) : (Quantity.zero : Float) / x = Quantity.zero := by
  have hmagnitude : magnitude (Quantity.zero : Float) = 0 := by decide
  have hsign : isNegative (Quantity.zero : Float) = false := by decide
  rw [div_eq isFinite_zero hx (magnitudeBits_pos hzero), hsign, hneg, hmagnitude, Nat.zero_mul,
    nearestBits_zero]
  rfl

end Binary

section LongOnly

variable {α : Type} [Quantity α] {scores : List (Asset × α)} {e : Asset × α} {cause : WeightsError}

/-- A score with zero in place of what is not positive, if it is finite. -/
def longOnlyScore (e : Asset × α) : Except WeightsError (Asset × α) :=
  match Quantity.nonFinite? e.2 with
  | some kind => .error (.nonFinite e.1 kind)
  | none => .ok (e.1, longOnly e.2)

theorem exists_longOnlyScore :
    (∃ r, longOnlyScore e = .ok r) ↔ Quantity.nonFinite? e.2 = none := by
  rw [longOnlyScore]
  cases Quantity.nonFinite? e.2 <;> simp

theorem longOnlyScore_eq_error : longOnlyScore e = .error cause ↔
    ∃ kind, Quantity.nonFinite? e.2 = some kind ∧ cause = .nonFinite e.1 kind := by
  rw [longOnlyScore]
  cases Quantity.nonFinite? e.2 <;> simp [@eq_comm _ cause]

/-- Among ascending assets, the first score that is no finite number is reported. -/
theorem longOnlyScores_eq_error (h : Asset.Ascending (scores.map (·.1))) :
    longOnlyScores scores = .error cause ↔ ∃ e ∈ scores, ∃ kind,
      Quantity.nonFinite? e.2 = some kind ∧ cause = .nonFinite e.1 kind ∧
        ∀ b ∈ scores, b.1.symbol < e.1.symbol → Quantity.nonFinite? b.2 = none := by
  refine (h.mapM_eq_error_iff longOnlyScore).trans ?_
  simp only [exists_longOnlyScore, longOnlyScore_eq_error]
  exact exists_congr fun e ↦ and_congr_right fun _ ↦
    ⟨fun ⟨⟨kind, hkind, hcause⟩, hbelow⟩ ↦ ⟨kind, hkind, hcause, hbelow⟩,
      fun ⟨kind, hkind, hcause, hbelow⟩ ↦ ⟨⟨kind, hkind, hcause⟩, hbelow⟩⟩

end LongOnly

namespace Graph

/-- The clamped scores are the last scores, each clamped. -/
theorem mem_clamped {α : Type} [Quantity α] {lasts : List (Asset × α)} {asset : Asset} {y : α} :
    (asset, y) ∈ clamped lasts ↔ ∃ x, (asset, x) ∈ lasts ∧ Quantity.clamp x = y := by
  simp only [clamped, List.mem_map, Prod.exists, Prod.mk.injEq]
  constructor
  · rintro ⟨_, x, hx, rfl, rfl⟩
    exact ⟨x, hx, rfl⟩
  · rintro ⟨x, hx, rfl⟩
    exact ⟨asset, x, hx, rfl, rfl⟩

/-- Clamping leaves a finite score finite and takes negative infinity in. -/
theorem nonFinite?_clamp_eq_none {x : Float} : Quantity.nonFinite? (Quantity.clamp x) = none ↔
    Quantity.nonFinite? x = none ∨ Quantity.nonFinite? x = some .negInfinity := by
  refine (congrArg (· = none) (Binary.nonFinite?_clamp x)).to_iff.trans ?_
  split
  · next h => exact iff_of_true rfl (.inr h)
  · next h => exact ⟨.inl, fun hor ↦ hor.resolve_right h⟩

/-- Clamping leaves what is not a number, and positive infinity, as they are. -/
theorem nonFinite?_clamp_eq_some {x : Float} {kind : NonFinite} :
    Quantity.nonFinite? (Quantity.clamp x) = some kind ↔
      Quantity.nonFinite? x = some kind ∧ kind ≠ .negInfinity := by
  refine (congrArg (· = some kind) (Binary.nonFinite?_clamp x)).to_iff.trans ?_
  split
  · next h => exact iff_of_false nofun fun ⟨hx, hne⟩ ↦ hne (Option.some.inj (hx.symm.trans h))
  · next h => exact ⟨fun hx ↦ ⟨hx, fun hkind ↦ h (hkind ▸ hx)⟩, And.left⟩

variable {g : Graph} {c : Client Float} {settings : Settings} {t : Option Instant}
  {lasts : List (Asset × Float)}

theorem LastScores.ascending_clamped (h : g.LastScores c t lasts) :
    Asset.Ascending ((clamped lasts).map (·.1)) := by
  rw [clamped, List.map_map]
  exact h.ascending

/-- The first latest value that is not a number or positive infinity is an error. -/
theorem LastScores.exists_nonFinite (hlasts : g.LastScores c t lasts) {asset : Asset} {x : Float}
    (hx : (asset, x) ∈ lasts) {kind : NonFinite} (hkind : Quantity.nonFinite? x = some kind)
    (hne : kind ≠ .negInfinity) :
    ∃ asset x kind, (asset, x) ∈ lasts ∧ Quantity.nonFinite? x = some kind ∧
      kind ≠ .negInfinity ∧ normalize (clamped lasts) = .error (.nonFinite asset kind) ∧
      ∀ b y, (b, y) ∈ lasts → b.symbol < asset.symbol →
        Quantity.nonFinite? y = none ∨ Quantity.nonFinite? y = some .negInfinity := by
  cases h : longOnlyScores (clamped lasts) with
  | ok zeroed =>
    have hnone := (longOnlyScores_eq_ok.mp h).1 _ (mem_clamped.mpr ⟨x, hx, rfl⟩)
    have hsome := nonFinite?_clamp_eq_some.mpr ⟨hkind, hne⟩
    cases hnone.symm.trans hsome
  | error cause =>
    obtain ⟨⟨first, y⟩, hy, kind', hkind', rfl, hbelow⟩ :=
      (longOnlyScores_eq_error hlasts.ascending_clamped).mp h
    obtain ⟨x', hx', rfl⟩ := mem_clamped.mp hy
    obtain ⟨hkind', hne'⟩ := nonFinite?_clamp_eq_some.mp hkind'
    refine ⟨first, x', kind', hx', hkind', hne', bind_eq_error.mpr (.inl h), fun b y hb hlt ↦ ?_⟩
    have hnone := hbelow (b, Quantity.clamp y) (mem_clamped.mpr ⟨y, hb, rfl⟩) hlt
    exact nonFinite?_clamp_eq_none.mp hnone

/-- A negative latest value, infinite or not, gives no weight. -/
theorem weight_of_negative {weights : List (Asset × Float)}
    (hweights : normalize (clamped lasts) = .ok weights) {asset : Asset} {x : Float}
    (hx : (asset, x) ∈ lasts) (hneg : Quantity.lt x Quantity.zero = true) :
    (asset, Quantity.zero) ∈ weights := by
  obtain ⟨hfinite, sum, hsum, hne, rfl⟩ := normalize_eq_ok.mp hweights
  have hterms := longOnly_terms hfinite
  have hzero : longOnly (Quantity.clamp x) = Quantity.zero := by
    rw [longOnly_clamp, longOnly, if_neg (Binary.not_zero_lt_of_lt_zero hneg)]
  have hshare : longOnly (Quantity.clamp x) / sum = Quantity.zero := by
    rw [hzero]
    exact Binary.zero_div_eq (Binary.le_total hterms hsum).1
      (Binary.isNegative_total hterms hsum) hne
  exact List.mem_map.mpr ⟨_, mem_clamped.mpr ⟨x, hx, rfl⟩, Prod.ext rfl hshare⟩

/-- Where every asset has a latest value, one that is not a number or positive infinity is an error,
for the first asset that has one.  A negative one is none: infinite or not, its asset gets no
weight. -/
theorem allocate_of_nonFinite (g : Graph) (c : Client Float) (settings : Settings)
    (t : Option Instant) {lasts : List (Asset × Float)}
    (hpool : settings.checkPool c.assets.length = .ok ()) (hlasts : g.LastScores c t lasts) :
    ((∃ asset x, (asset, x) ∈ lasts ∧ (Quantity.nonFinite? x = some .nan ∨
        Quantity.nonFinite? x = some .posInfinity)) →
      ∃ asset x kind, (asset, x) ∈ lasts ∧ Quantity.nonFinite? x = some kind ∧
        kind ≠ .negInfinity ∧
        g.allocate c settings t = .error (.weights t (.nonFinite asset kind)) ∧
        ∀ b y, (b, y) ∈ lasts → b.symbol < asset.symbol →
          Quantity.nonFinite? y = none ∨ Quantity.nonFinite? y = some .negInfinity) ∧
    ∀ a, g.allocate c settings t = .ok a → ∀ asset x, (asset, x) ∈ lasts →
      Quantity.lt x Quantity.zero = true → a.weight? asset = some Quantity.zero := by
  constructor
  · rintro ⟨asset, x, hx, hspecial⟩
    obtain ⟨first, y, kind, hy, hkind, hne, herror, hbelow⟩ := hspecial.elim
      (hlasts.exists_nonFinite hx · nofun) (hlasts.exists_nonFinite hx · nofun)
    exact ⟨first, y, kind, hy, hkind, hne,
      allocate_eq_error_iff.mpr (.weights hpool hlasts herror), hbelow⟩
  · intro a ha asset x hx hneg
    obtain ⟨-, lasts', weights, hlasts', hweights, rfl⟩ := allocate_eq_ok_iff.mp ha
    obtain rfl := hlasts.unique hlasts'
    have hnodup : (weights.map (·.1)).Nodup := by
      rw [assets_of_normalize hweights]
      exact hlasts.ascending_clamped.nodup
    exact Entries.lookup_of_mem hnodup (weight_of_negative hweights hx hneg)

end Graph

/-! ## A square beyond the doubles -/

/-- The price and its square, one less the other. -/
def spreadScore (left right : String) : Strategy where
  name := .text "spread"
  score := .text "spread"
  calculations := [
    ⟨.text "price", .query, [⟨.text "field", .text, "close"⟩]⟩,
    ⟨.text "square", .series .mul,
      [⟨.text "left", .reference, "price"⟩, ⟨.text "right", .reference, "price"⟩]⟩,
    ⟨.text "spread", .series .sub,
      [⟨.text "left", .reference, left⟩, ⟨.text "right", .reference, right⟩]⟩]

/-- The graph of the difference, which reads two positions. -/
def spreadGraph (left right : ℤ) (edges : List (Scalar × Scalar)) : Graph where
  strategy := .text "spread"
  nodes := [.query (.text "price") (some "close"), .series (.text "square") (.series .mul) 0 0,
    .series (.text "spread") (.series .sub) left right]
  scorePosition := 2
  edges := (.text "price", .text "square") :: edges

/-- The square less the price. -/
def excessGraph : Graph :=
  spreadGraph 1 0 [(.text "square", .text "spread"), (.text "price", .text "spread")]

/-- The price less its square. -/
def shortfallGraph : Graph :=
  spreadGraph 0 1 [(.text "price", .text "spread"), (.text "square", .text "spread")]

/-- Prices on one day, one of which has no finite square. -/
def steepMarket : Market Float where
  prices := ⟨[some ⟨1⟩], [(.text "A", [1e200]), (.text "B", [0.5])]⟩
  fields := []
  defaultField := closeField

/-- Scores of one point each at the first day are the last scores. -/
theorem steepMarket_lastScores {g : Graph} {a b : Float}
    (ha : (g.evaluate steepMarket.client ⟨"A"⟩ (some ⟨1⟩)).result.map (·.score.points) =
      .ok [(⟨1⟩, a)])
    (hb : (g.evaluate steepMarket.client ⟨"B"⟩ (some ⟨1⟩)).result.map (·.score.points) =
      .ok [(⟨1⟩, b)]) :
    g.LastScores steepMarket.client (some ⟨1⟩) [(⟨"A"⟩, a), (⟨"B"⟩, b)] := by
  have hassets : steepMarket.client.assets.map (·.2) = [⟨"A"⟩, ⟨"B"⟩] := by decide
  have hlast {asset : Asset} {x : Float}
      (h : (g.evaluate steepMarket.client asset (some ⟨1⟩)).result.map (·.score.points) =
        .ok [(⟨1⟩, x)]) : g.LastScore steepMarket.client (some ⟨1⟩) asset x := by
    obtain ⟨s, hs, hpoints⟩ := map_eq_ok.mp h
    exact ⟨s, hs, by simp [Series.last, Series.lastPoint?, hpoints]⟩
  have hascending : Asset.Ascending [⟨"A"⟩, ⟨"B"⟩] := by decide
  refine ⟨hascending, fun asset ↦ by rw [hassets]; rfl, ?_⟩
  simpa using ⟨hlast ha, hlast hb⟩

/-- Positive infinity is refused. -/
theorem excess_nonFinite :
    (spreadScore "square" "price").build true = .ok excessGraph ∧
    excessGraph.allocate steepMarket.client .standard (some ⟨1⟩) =
      .error (.weights (some ⟨1⟩) (.nonFinite ⟨"A"⟩ .posInfinity)) := by
  refine ⟨rfl, ?_⟩
  have hlasts : excessGraph.LastScores steepMarket.client (some ⟨1⟩)
      [(⟨"A"⟩, 1.0 / 0.0), (⟨"B"⟩, -0.25)] :=
    steepMarket_lastScores (by decide +kernel) (by decide +kernel)
  obtain ⟨asset, x, kind, hx, hkind, -, herror, -⟩ := (excessGraph.allocate_of_nonFinite
    steepMarket.client .standard (some ⟨1⟩) (by decide) hlasts).1
      ⟨⟨"A"⟩, _, List.mem_cons_self, .inr (by decide)⟩
  have hinfinite : Quantity.nonFinite? (1.0 / 0.0 : Float) = some .posInfinity := by decide
  have hfinite : Quantity.nonFinite? (-0.25 : Float) = none := by decide
  simp only [List.mem_cons, Prod.mk.injEq, List.not_mem_nil, or_false] at hx
  rcases hx with ⟨rfl, rfl⟩ | ⟨-, rfl⟩
  · obtain rfl := Option.some.inj (hinfinite.symm.trans hkind)
    exact herror
  · cases hfinite.symm.trans hkind

/-- Negative infinity counts as zero. -/
theorem shortfall_allocate :
    (spreadScore "price" "square").build true = .ok shortfallGraph ∧
    shortfallGraph.LastScores steepMarket.client (some ⟨1⟩)
      [(⟨"A"⟩, -1.0 / 0.0), (⟨"B"⟩, 0.25)] ∧
    Quantity.nonFinite? (-1.0 / 0.0 : Float) = some .negInfinity ∧
    shortfallGraph.allocate steepMarket.client .standard (some ⟨1⟩) =
      .ok ⟨some ⟨1⟩, [(⟨"A"⟩, 0), (⟨"B"⟩, 1)]⟩ := by
  have hlasts : shortfallGraph.LastScores steepMarket.client (some ⟨1⟩)
      [(⟨"A"⟩, -1.0 / 0.0), (⟨"B"⟩, 0.25)] :=
    steepMarket_lastScores (by decide +kernel) (by decide +kernel)
  refine ⟨rfl, hlasts, by decide +kernel, ?_⟩
  exact Graph.allocate_eq_ok_iff.mpr ⟨by decide, _, _, hlasts, by decide +kernel, rfl⟩

end ScorePortfolio

import ScorePortfolio.Proofs.Evaluation.Correctness
import ScorePortfolio.Proofs.Graph.Validity
import ScorePortfolio.Proofs.Market.Simulation
import ScorePortfolio.Proofs.Number.Numerals
import ScorePortfolio.Proofs.Portfolio.Shares

/-!
# The gap between averages of a rising price

The gap strategy scores an asset by how far a fast average of its price is above a slow one, in
units of the fast one.  While a price rises the fast average is the larger, so a rising asset has a
positive score; and one positive score is enough for an allocation, as all prices are positive and
no division fails.  Of all failures of an allocation none is left.
-/

namespace ScorePortfolio

/-! ## Positive scores -/

theorem clamp_rat (x : ℚ) : Quantity.clamp x = max 0 x := by
  rw [Quantity.clamp]
  split
  · next hneg => exact (max_eq_left (of_decide_eq_true hneg : x < 0).le).symm
  · next hpos =>
    have hle : 0 ≤ x := not_lt.mp fun hlt ↦ hpos (decide_eq_true hlt)
    exact (max_eq_right hle).symm

namespace Graph

variable {g : Graph} {c : Client ℚ} {settings : Settings} {t : Option Instant}

namespace LastScores

variable {lasts : List (Asset × ℚ)} {asset : Asset} {x : ℚ}

theorem mem_of_lastScore (h : g.LastScores c t lasts) (hasset : asset ∈ c.assets.map (·.2))
    (hx : g.LastScore c t asset x) : (asset, x) ∈ lasts := by
  obtain ⟨e, he, rfl⟩ := List.mem_map.mp ((h.covers asset).mpr hasset)
  exact hx.unique (h.last e he) ▸ he

/-- One positive score makes the total of the clamped scores positive. -/
theorem exactTotal_pos (hx : (asset, x) ∈ lasts) (hpos : 0 < x) :
    0 < exactTotal (clamped lasts) := by
  have hmem : max 0 x ∈ (clamped lasts).map fun e ↦ max 0 e.2 := by
    refine List.mem_map.mpr ⟨(asset, max 0 x), mem_clamped.mpr ⟨x, hx, clamp_rat x⟩, ?_⟩
    exact max_eq_right (le_max_left 0 x)
  refine (lt_max_of_lt_right hpos).trans_le (List.single_le_sum (fun y hy ↦ ?_) _ hmem)
  obtain ⟨e, -, rfl⟩ := List.mem_map.mp hy
  exact le_max_left _ _

/-- A positive score has its share of the positive ones. -/
theorem lookup_shares (h : g.LastScores c t lasts) (hx : (asset, x) ∈ lasts) (hpos : 0 < x) :
    ((clamped lasts).map fun e ↦ (e.1, max 0 e.2 / exactTotal (clamped lasts))).lookup asset =
      some (x / exactTotal (clamped lasts)) := by
  have hclamped : (clamped lasts).lookup asset = some (Quantity.clamp x) := by
    rw [clamped, Entries.lookup_map, Entries.lookup_of_mem h.ascending.nodup hx, Option.map_some]
  rw [Entries.lookup_map (fun y ↦ max 0 y / exactTotal (clamped lasts)), hclamped,
    Option.map_some, clamp_rat, max_eq_right hpos.le, max_eq_right hpos.le]

end LastScores

/-- If all assets have scores and one of these is positive, nothing that an allocation can fail for
is left, and every positive score has a positive weight. -/
theorem exists_allocation (hpool : settings.checkPool c.assets.length = .ok ())
    (hscores : ∀ asset ∈ c.assets.map (·.2), ∃ x, g.LastScore c t asset x)
    (hpos : ∃ asset ∈ c.assets.map (·.2), ∃ x, g.LastScore c t asset x ∧ 0 < x) :
    ∃ a, g.allocate c settings t = .ok a ∧ ∀ asset ∈ c.assets.map (·.2), ∀ x,
      g.LastScore c t asset x → 0 < x → ∃ weight, a.weight? asset = some weight ∧ 0 < weight := by
  have htotal {lasts : List (Asset × ℚ)} (hlasts : g.LastScores c t lasts) :
      0 < exactTotal (clamped lasts) := by
    obtain ⟨asset, hasset, x, hx, hpos⟩ := hpos
    exact LastScores.exactTotal_pos (hlasts.mem_of_lastScore hasset hx) hpos
  cases h : g.allocate c settings t with
  | ok a =>
    obtain ⟨-, lasts, weights, hlasts, hweights, rfl⟩ := allocate_eq_ok_iff.mp h
    obtain ⟨-, rfl⟩ := normalize_rat.mp hweights
    refine ⟨_, rfl, fun asset hasset x hx hpos ↦ ?_⟩
    exact ⟨_, hlasts.lookup_shares (hlasts.mem_of_lastScore hasset hx) hpos,
      div_pos hpos (htotal hlasts)⟩
  | error e =>
    cases allocate_eq_error_iff.mp h with
    | pool hfail => cases hfail.symm.trans hpool
    | evaluation _ hasset hfail _ =>
      obtain ⟨x, s, hs, -⟩ := hscores _ hasset
      cases hfail.symm.trans hs
    | @emptyScore asset _ _ _ hasset hs hempty _ =>
      obtain ⟨x, s, hs', hlast⟩ := hscores asset hasset
      obtain rfl := Except.ok.inj (hs.symm.trans hs')
      have hok : latestScore t asset _ = .ok _ := latestScore_eq_ok.mpr ⟨x, hlast, rfl⟩
      cases hok.symm.trans (latestScore_eq_error.mpr ⟨hempty, rfl⟩)
    | weights _ hlasts hfail =>
      cases hfail.symm.trans (normalize_rat.mpr ⟨(htotal hlasts).ne', rfl⟩)

end Graph

/-! ## The strategy -/

namespace Calculation

/-- The price. -/
def price : Calculation :=
  ⟨.text "price", .query, [⟨.text "field", .text, some closeField⟩]⟩

/-- An average of the price over a window. -/
def average (name window : String) : Calculation :=
  ⟨.text name, .sma,
    [⟨.text "time_series", .reference, some "price"⟩, ⟨.text "window_size", .integer, some window⟩]⟩

/-- Two calculations combined. -/
def combined (name : String) (op : Arithmetic) (left right : String) : Calculation :=
  ⟨.text name, .series op,
    [⟨.text "left", .reference, some left⟩, ⟨.text "right", .reference, some right⟩]⟩

end Calculation

open Calculation

/-- The gap between averages over a short and a long window, in units of the former. -/
def averageGap (short long : String) : Strategy where
  name := .text "gap"
  score := .text "gap"
  calculations := [price, average "fast" short, average "slow" long,
    combined "spread" .sub "fast" "slow", combined "gap" .div "spread" "fast"]

namespace AverageGap

/-- The names of the calculations with their dependencies. -/
def digraph : Digraph Scalar where
  vertices := [.text "price", .text "fast", .text "slow", .text "spread", .text "gap"]
  edges := [(.text "price", .text "fast"), (.text "price", .text "slow"),
    (.text "fast", .text "spread"), (.text "slow", .text "spread"),
    (.text "spread", .text "gap"), (.text "fast", .text "gap")]

/-- The plan of the strategy. -/
def plan (short long : String) : Plan where
  named := digraph.vertices.zip (averageGap short long).calculations
  score := .text "gap"
  edges := digraph.edges
  order := digraph.vertices
  looseness := none

variable {short long : String} {v w : ℕ} {strict : Bool}

/-- The strategy of the gap has a plan, strictly checked or not: its four names are distinct, three
references make its edges, and each calculation comes after those it reads. -/
theorem planned : (averageGap short long).Planned strict (plan short long) where
  nonempty := List.cons_ne_nil _ _
  named := by rfl
  distinct := by
    change (digraph.vertices.map Scalar.key).Nodup
    decide
  score := by rfl
  edges := by rfl
  acyclic := by
    change digraph.stuck = []
    rfl
  order := by
    change digraph.vertices = digraph.order
    rfl
  looseness := by
    change looseness? digraph _ = _
    exact Strategy.looseness?_eq_none.mpr (by rfl)
  connected := fun _ ↦ rfl

theorem forall_calculations {motive : Calculation → Prop} (hprice : motive price)
    (hfast : motive (average "fast" short)) (hslow : motive (average "slow" long))
    (hspread : motive (combined "spread" .sub "fast" "slow"))
    (hgap : motive (combined "gap" .div "spread" "fast")) :
    ∀ c ∈ (averageGap short long).calculations, motive c := by
  simp only [averageGap, List.forall_mem_cons]
  exact ⟨hprice, hfast, hslow, hspread, hgap, nofun⟩

/-- Windows that spell positive integers are all that the strategy needs to have a graph. -/
theorem exists_graph (hv : Decimal.integer? short = some (v : ℤ)) (hvpos : 1 ≤ v)
    (hw : Decimal.integer? long = some (w : ℤ)) (hwpos : 1 ≤ w) (strict : Bool) :
    ∃ g, (averageGap short long).build strict = .ok g := by
  have haverage {name window : String} {n : ℕ} (hn : Decimal.integer? window = some (n : ℤ))
      (hpos : 1 ≤ n) : (average name window).HasOperands :=
    ⟨⟨_, rfl, rfl⟩, n, _, window, rfl, rfl, rfl, hn, by exact_mod_cast hpos⟩
  have hcombined {name op left right} : (combined name op left right).HasOperands :=
    ⟨⟨_, rfl, rfl⟩, _, rfl, rfl⟩
  refine planned.exists_graph (forall_calculations ?_ (haverage hv hvpos) (haverage hw hwpos)
    hcombined hcombined)
  exact ⟨some closeField, .inr ⟨_, rfl, .inl rfl, rfl⟩⟩

/-! ## The score -/

variable {c : Client ℚ} {asset : Asset} {t : Option Instant} {s : Series ℚ} {g : Graph}

/-- Where enough positive prices are there, the gap is that of the latest means. -/
theorem lastScore (hv : Decimal.integer? short = some (v : ℤ)) (hvpos : 1 ≤ v) (hvw : v < w)
    (hw : Decimal.integer? long = some (w : ℤ)) (hg : (averageGap short long).build strict = .ok g)
    (hs : c.query asset t (some closeField) = .ok s) (hinc : s.IsIncreasing)
    (hpos : ∀ x ∈ s.values, 0 < x) (hfit : w ≤ s.length) :
    g.LastScore c t asset ((s.recentMean v - s.recentMean w) / s.recentMean v) := by
  obtain ⟨spread, gap, hspread, hgap, hlast⟩ := Series.exists_gap hinc hpos hvpos hvw hfit
  have hprice : (averageGap short long).Means c asset t price s := .query rfl hs
  have haverage (name : String) {window : String} {n : ℕ}
      (hn : Decimal.integer? window = some (n : ℤ)) (hn' : 1 ≤ n) (hfit : n ≤ s.length) :
      (averageGap short long).Means c asset t (average name window) (s.movingAverage n) :=
    .sma rfl rfl List.mem_cons_self rfl hprice rfl hn
      (Series.sma_eq_ok (by exact_mod_cast hn') (by exact_mod_cast hfit))
  have hfast := haverage "fast" hv hvpos (hvw.le.trans hfit)
  have hslow := haverage "slow" hw (hvpos.trans hvw.le) hfit
  have hspread : (averageGap short long).Means c asset t
      (combined "spread" .sub "fast" "slow") spread :=
    .series rfl rfl (.tail _ (.head _)) rfl hfast rfl (.tail _ (.tail _ (.head _))) rfl hslow
      hspread
  have hgap : (averageGap short long).Means c asset t (combined "gap" .div "spread" "fast") gap :=
    .series rfl rfl (.tail _ (.tail _ (.tail _ (.head _)))) rfl hspread rfl (.tail _ (.head _)) rfl
      hfast hgap
  obtain ⟨p, hp⟩ := Strategy.exists_plan hg
  obtain ⟨r, hr, rfl⟩ := Strategy.exists_evaluate hp
    (forall_calculations ⟨_, hprice⟩ ⟨_, hfast⟩ ⟨_, hslow⟩ ⟨_, hspread⟩ ⟨_, hgap⟩)
    (List.mem_of_getElem? (i := 4) rfl) rfl hgap
  exact ⟨r, hr, hlast⟩

/-! ## Allocations -/

/-- What a window of a quoted market spells. -/
theorem integer?_window {m : Market ℚ} (h : m.IsQuoted) {n : ℕ} (hn : n ≤ m.datesUpTo t) :
    Decimal.integer? (toString n) = some (n : ℤ) := by
  refine Decimal.integer?_toString ((hn.trans (Market.datesUpTo_le h)).trans_lt ?_)
  calc 2 ^ 64 < 10 ^ 20 := by decide
    _ ≤ 10 ^ Decimal.digitLimit := Nat.pow_le_pow_right (by decide) (by decide)

/-- All assets of a quoted market have scores, and those that rise have positive ones. -/
theorem exists_lastScore {m : Market ℚ} (h : m.IsQuoted) (hv : 1 ≤ v) (hvw : v < w)
    (ht : ∀ u, t = some u → u.InRange) (hfit : w ≤ m.datesUpTo t)
    (hg : (averageGap (toString v) (toString w)).build strict = .ok g)
    (hasset : asset ∈ m.assets.map (·.2)) :
    ∃ x, g.LastScore m.client t asset x ∧ (m.Rises asset → 0 < x) := by
  obtain ⟨s, hs, hinc, hlength, hpos, hrise⟩ := h.exists_answer hasset ht
  have hfit' : w ≤ s.length := hlength ▸ hfit
  refine ⟨_, lastScore (integer?_window h (hvw.le.trans hfit)) hv hvw (integer?_window h hfit) hg
    hs hinc hpos hfit', fun hr ↦ div_pos (sub_pos.mpr ?_) ?_⟩
  · exact Series.recentMean_lt hv hvw hfit' (hrise hr)
  · exact Series.recentMean_pos hv (hvw.le.trans hfit') hpos

/-- There is a score only as of a moment that an index can hold. -/
theorem inRange_of_lastScore {m : Market ℚ} {u : Instant} {x : ℚ}
    (hg : (averageGap short long).build strict = .ok g)
    (hx : g.LastScore m.client (some u) asset x) : u.InRange := by
  obtain ⟨s, hs, -⟩ := hx
  obtain ⟨p, hp⟩ := Strategy.exists_plan hg
  obtain ⟨y, hy⟩ := (Strategy.evaluate_iff hp).mp ⟨s, hs⟩ price List.mem_cons_self
  cases hy with
  | query _ hquery => exact Market.inRange_of_query hquery
  | scalar hop | series hop | sma hop => cases hop

end AverageGap

/-- In exact arithmetic, the gap strategy can be allocated in every market of positive prices of
which one rises: the strategy has a graph, all assets have scores, and each asset that rises has a
positive weight.  A simulated market is one of these, whatever the sine is within its bounds. -/
theorem averageGap_allocates :
    (∀ m : Market ℚ, m.IsQuoted → (∃ asset, m.Rises asset) →
      ∀ (v w : ℕ) (t : Option Instant), 1 ≤ v → v < w → (∀ u, t = some u → u.InRange) →
        w ≤ m.datesUpTo t → ∀ strict, ∃ g,
          (averageGap (toString v) (toString w)).build strict = .ok g ∧
          (∀ asset ∈ m.assets.map (·.2), ∃ s, (g.evaluate m.client asset t).result = .ok s) ∧
          ∀ settings : Settings, settings.checkPool m.assets.length = .ok () →
            ∃ a, g.allocate m.client settings t = .ok a ∧
              ∀ asset, m.Rises asset → ∃ weight, a.weight? asset = some weight ∧ 0 < weight) ∧
    ∀ [Elementary ℚ], (∀ x : ℚ, |Elementary.sine x| ≤ 1) → ∀ (days : ℤ) (start : Instant),
      2 ≤ days → (∀ day ∈ Step.instants start Instant.perDay days.toNat, day.InRange) →
        ∃ m : Market ℚ, Simulation.market days start = .ok m ∧ m.IsQuoted ∧ m.Rises ⟨"C"⟩ ∧
          m.prices.dates = (Step.instants start Instant.perDay days.toNat).map some := by
  constructor
  · intro m hm ⟨rising, hrising⟩ v w t hv hvw ht hfit strict
    obtain ⟨g, hg⟩ := AverageGap.exists_graph
      (AverageGap.integer?_window hm (hvw.le.trans hfit)) hv
      (AverageGap.integer?_window hm hfit) (hv.trans hvw.le) strict
    have hscores (asset : Asset) (hasset : asset ∈ m.assets.map (·.2)) :=
      AverageGap.exists_lastScore hm hv hvw ht hfit hg hasset
    refine ⟨g, hg, fun asset hasset ↦ ?_, fun settings hpool ↦ ?_⟩
    · obtain ⟨x, ⟨s, hs, -⟩, -⟩ := hscores asset hasset
      exact ⟨s, hs⟩
    · obtain ⟨x, hx, hpos⟩ := hscores rising hrising.known
      obtain ⟨a, ha, hweights⟩ := Graph.exists_allocation hpool
        (fun asset hasset ↦ (hscores asset hasset).imp fun _ ↦ And.left)
        ⟨rising, hrising.known, x, hx, hpos hrising⟩
      refine ⟨a, ha, fun asset hrise ↦ ?_⟩
      obtain ⟨x, hx, hpos⟩ := hscores asset hrise.known
      exact hweights asset hrise.known x hx (hpos hrise)
  · intro _ hsine days start hdays hrange
    have hn : 2 ≤ days.toNat := by omega
    exact ⟨_, Simulation.market_eq hdays, Simulation.marketOver_isQuoted hsine hn hrange,
      Simulation.marketOver_rises hn, rfl⟩

/-! ## The simulated market -/

open Simulation

/-- On the simulated market of usual length, with averages over fifty and two hundred days. -/
theorem simulation_allocates : ∃ m : Market ℚ,
    @Simulation.market ℚ _ roughFunctions defaultDays .firstRegular = .ok m ∧ m.IsQuoted ∧
      m.Rises ⟨"C"⟩ ∧ ∃ g a weight, (averageGap "50" "200").build true = .ok g ∧
        g.allocate m.client .standard (some (day 999)) = .ok a ∧
        a.weight? ⟨"C"⟩ = some weight ∧ 0 < weight := by
  have hdays : defaultDays.toNat = 1000 := by rfl
  have hrange : ∀ d ∈ Step.instants .firstRegular Instant.perDay defaultDays.toNat, d.InRange := by
    intro d hd
    obtain ⟨i, hi, rfl⟩ := mem_days.mp hd
    exact day_inRange (by omega)
  obtain ⟨m, hm, hquoted, hrises, hdates⟩ := @(averageGap_allocates).2 roughFunctions
    abs_roughSine_le defaultDays .firstRegular (by decide) hrange
  have hfit : m.datesUpTo (some (day 999)) = 1000 := by
    rw [Market.datesUpTo, hdates, List.countP_eq_length.mpr]
    · rw [List.length_map, Step.instants, List.length_map, List.length_range, hdays]
    · intro date hdate
      obtain ⟨d, hd, rfl⟩ := List.mem_map.mp hdate
      obtain ⟨i, hi, rfl⟩ := mem_days.mp hd
      exact decide_eq_true (day_le_day (by omega))
  obtain ⟨g, hg, -, hallocate⟩ := averageGap_allocates.1 m hquoted ⟨_, hrises⟩ 50 200
    (some (day 999)) (by decide) (by decide) (fun _ hu ↦ Option.some.inj hu ▸ day_inRange le_rfl)
    (hfit ▸ by decide) true
  obtain ⟨a, ha, hweights⟩ := hallocate .standard (Settings.HasPool.checkPool (.inl rfl) _)
  obtain ⟨weight, hweight, hpos⟩ := hweights _ hrises
  exact ⟨m, hm, hquoted, hrises, g, a, weight, hg, ha, hweight, hpos⟩

/-- The last day of the year 9999, which no index can hold. -/
def distantDay : Instant := ⟨253402214400000000000⟩

/-- As of a moment that no index can hold there is no allocation, although all dates are before
it. -/
theorem exists_moment_unallocated : ¬ ∀ (m : Market ℚ) (v w : ℕ) (t : Option Instant),
    m.IsQuoted → (∃ asset, m.Rises asset) → 1 ≤ v → v < w → w ≤ m.datesUpTo t →
      ∃ g, (averageGap (toString v) (toString w)).build true = .ok g ∧
        ∃ a, g.allocate m.client .standard t = .ok a := by
  intro h
  let functions := roughFunctions
  have hrange : ∀ d ∈ Step.instants .firstRegular Instant.perDay 2, d.InRange := by decide
  have hrises : (marketOver 2 .firstRegular).Rises ⟨"C"⟩ := marketOver_rises le_rfl
  obtain ⟨g, hg, a, ha⟩ := h (marketOver 2 .firstRegular) 1 2 (some distantDay)
    (marketOver_isQuoted abs_roughSine_le le_rfl hrange) ⟨_, hrises⟩ le_rfl (by decide) (by decide)
  obtain ⟨-, lasts, weights, hlasts, -⟩ := Graph.allocate_eq_ok_iff.mp ha
  obtain ⟨x, hx⟩ := hlasts.exists_last hrises.known
  exact absurd (AverageGap.inRange_of_lastScore hg hx) (by decide)

end ScorePortfolio

import ScorePortfolio.Proofs.Number.Counts
import ScorePortfolio.Proofs.Number.Power
import ScorePortfolio.Proofs.Number.Sums
import ScorePortfolio.Proofs.Portfolio.Growth
import ScorePortfolio.Proofs.Portfolio.TableReturns

/-!
# When a run has figures

Whatever the returns are, all figures but one can be computed, as long as the number of periods in a
year fits into a word.  The one is the annual return: it is a power, and one that leaves the range
of the doubles ends the run, where a product or a quotient would be infinite.  That takes a gain in
less than a year, since the power of a loss is at most one and the growth of a year or more is
brought down to one year.
-/

namespace ScorePortfolio

namespace Metrics

open Binary

variable {returns : List Float} {periods : ℤ}

/-- The names of the figures. -/
def names : List String :=
  ["total_return", "annualized_return", "mean_return", "volatility", "sharpe_ratio",
   "max_drawdown", "win_rate", "loss_rate"]

/-- The growth brought to one year is beyond the range of the doubles. -/
def Outgrown (returns : List Float) (periods : ℤ) : Prop :=
  Quantity.le (ScorePortfolio.totalReturn returns) (Quantity.ofInt (-1)) = false ∧
    Elementary.power (Quantity.one + ScorePortfolio.totalReturn returns)
      (Quantity.one / (Quantity.ofInt returns.length / Quantity.ofInt periods)) = none

instance (returns : List Float) (periods : ℤ) : Decidable (Outgrown returns periods) :=
  inferInstanceAs (Decidable (_ ∧ _))

/-- There are too few returns for figures, or the periods fit into a word and the growth of a year
into the doubles. -/
def HasFigures (returns : List Float) (periods : ℤ) : Prop :=
  returns.length < 2 ∨ periods < 18446744073709551616 ∧ ¬ Outgrown returns periods

/-! ## The span of the returns -/

/-- The years a run spans are a positive double, of at least one if there are as many returns as
periods in a year. -/
theorem exists_span (hcount : 2 ≤ returns.length) (hperiods : 0 < periods)
    (hword : periods < 18446744073709551616) :
    ∃ bits, (Quantity.ofInt returns.length / Quantity.ofInt periods : Float) = ofBits false bits ∧
      leastBits ≤ bits ∧ (periods ≤ returns.length → oneBits ≤ bits) := by
  obtain ⟨n, rfl⟩ := Int.eq_ofNat_of_zero_le hperiods.le
  obtain ⟨bits, hbits, hleast, hone⟩ :=
    exists_quotient (by omega : 0 < returns.length) (by omega : 0 < n) (by
      rw [Nat.one_shiftLeft]
      omega)
  exact ⟨bits, hbits, hleast, fun h ↦ hone (Int.ofNat_le.mp h)⟩

/-- The years a run spans are never zero, so that annualizing does not divide by it. -/
theorem span_ne_zero (hcount : 2 ≤ returns.length) (hperiods : 0 < periods)
    (hword : periods < 18446744073709551616) :
    Quantity.eq (Quantity.ofInt returns.length / Quantity.ofInt periods : Float)
      Quantity.zero = false := by
  obtain ⟨bits, hbits, hleast, -⟩ := exists_span hcount hperiods hword
  rw [hbits, Bool.eq_false_iff]
  intro hzero
  rw [eq_zero_iff, magnitudeBits_ofBits] at hzero
  have hpos := leastBits_pos
  have hinfinity : 0 < infinityBits := by decide
  omega

/-! ## The annual return -/

/-- Growth by no more than nothing is at most one. -/
theorem magnitude_one_add_le {total : Float} (hfinite : total.isFinite = true)
    (hloss : Quantity.le total (Quantity.ofInt (-1)) = false) (hle : units total ≤ 0) :
    magnitude (Quantity.one + total) ≤ unitsInOne := by
  have hgrowth : -(unitsInOne : ℤ) < units total := by
    rw [Quantity.le, Bool.or_eq_false_iff] at hloss
    rw [← units_ofInt_neg_one]
    refine lt_of_le_of_ne (not_lt.mp fun hlt ↦ ?_) fun heq ↦ ?_
    · have hlt := (lt_iff hfinite isFinite_ofInt_neg_one).mpr hlt
      exact Bool.eq_false_iff.mp hloss.1 (decide_eq_true hlt)
    · exact Bool.eq_false_iff.mp hloss.2 ((beq_iff hfinite isFinite_ofInt_neg_one).mpr heq.symm)
  have hsum : nearestBits (units Quantity.one + units total).natAbs 1 ≤ oneBits := by
    rw [← nearestBits_unitsInOne, units_one]
    exact nearestBits_mono one_pos one_pos (Nat.mul_le_mul_right 1 (by omega))
  rw [add_eq isFinite_one hfinite, magnitude_ofBits _ (hsum.trans oneBits_lt.le)]
  exact (unitsOfBits_le_iff.mpr hsum).trans_eq unitsOfBits_oneBits

/-- Only the gain of less than a year is outgrown. -/
theorem Outgrown.gain (h : Outgrown returns periods) (hcount : 2 ≤ returns.length)
    (hperiods : 0 < periods) (hword : periods < 18446744073709551616) :
    Quantity.lt Quantity.zero (ScorePortfolio.totalReturn returns) = true ∧
      returns.length < periods := by
  obtain ⟨hloss, hpower⟩ := h
  obtain ⟨bits, hbits, hleast, hone⟩ := exists_span hcount hperiods hword
  obtain ⟨bits', hbits', hlt, hle⟩ := exists_reciprocal hleast
  rw [hbits, hbits'] at hpower
  obtain ⟨hbase, hrange⟩ := power_eq_none hpower
  have hmagnitude := mt (Power.bits_lt hbase (isNegative_ofBits false bits')) hrange.not_gt
  rw [not_or, magnitude_ofBits _ hlt.le, ← unitsOfBits_oneBits, unitsOfBits_le_iff,
    unitsOfBits_oneBits] at hmagnitude
  constructor
  · have hfinite := (isFinite_of_add hbase).2
    have hunits : 0 < units (ScorePortfolio.totalReturn returns) :=
      not_le.mp fun hle ↦ hmagnitude.1 (magnitude_one_add_le hfinite hloss hle)
    exact (zero_lt_iff hfinite).mpr hunits
  · exact not_le.mp fun hyear ↦ hmagnitude.2 (hle (hone hyear))

/-! ## Figures -/

/-- There are metrics exactly if there are too few returns for figures, or the periods fit a word
and the growth of a year stays in the range of a double. -/
theorem exists_ofReturns_float (hperiods : 0 < periods) :
    (∃ metrics, ofReturns returns periods = .ok metrics) ↔ HasFigures returns periods := by
  rw [exists_ofReturns, exists_rootPeriods, exists_annualized, HasFigures]
  refine or_congr_right' fun hcount ↦ ?_
  rw [not_lt] at hcount
  constructor
  · rintro ⟨⟨-, hword⟩, -, hannualized⟩
    refine ⟨hword, fun ⟨hloss, hpower⟩ ↦ ?_⟩
    rcases hannualized with hnone | ⟨-, hsome⟩
    · exact Bool.eq_false_iff.mp hloss hnone
    · exact hsome hpower
  · rintro ⟨hword, hgrown⟩
    refine ⟨⟨by omega, hword⟩, hperiods.ne', or_iff_not_imp_left.mpr fun hloss ↦
      ⟨span_ne_zero hcount hperiods hword, fun hpower ↦ hgrown ⟨?_, hpower⟩⟩⟩
    exact Bool.eq_false_iff.mpr hloss

/-- The metrics have all of their names from two returns on, and below that none. -/
theorem names_of_ofReturns {metrics : Option (Metrics Float)}
    (h : ofReturns returns periods = .ok metrics) :
    (metrics.elim [] entries).map (·.1) = if returns.length < 2 then [] else names := by
  rcases ofReturns_eq_ok.mp h with ⟨hfew, rfl⟩ | ⟨hfew, _, _, _, -, -, -, rfl⟩
  · rw [if_pos hfew]
    rfl
  · rw [if_neg hfew]
    rfl

end Metrics

/-- A run of which the allocations and the returns exist has a result if these have figures. -/
theorem Backtest.exists_run {α : Type} [Quantity α] [Elementary α] {g : Graph} {c : Client α}
    {settings : Settings} {moments : List (Option Instant)} {history : History α}
    {returns : Series α} (hhistory : g.history c settings moments = .ok history)
    (hreturns : c.returns history = .ok returns) :
    (∃ result, run g c settings moments = .ok result) ↔
      ∃ metrics, Metrics.ofReturns returns.values settings.periodsPerYear = .ok metrics := by
  constructor
  · rintro ⟨result, h⟩
    obtain ⟨history', hhistory', h⟩ := bind_eq_ok.mp h
    obtain rfl := Except.ok.inj (hhistory.symm.trans (mapError_eq_ok.mp hhistory'))
    obtain ⟨returns', hreturns', h⟩ := bind_eq_ok.mp h
    obtain rfl := Except.ok.inj (hreturns.symm.trans (mapError_eq_ok.mp hreturns'))
    obtain ⟨metrics, hmetrics, -⟩ := map_eq_ok.mp (mapError_eq_ok.mp h)
    exact ⟨metrics, hmetrics⟩
  · rintro ⟨metrics, hmetrics⟩
    exact ⟨_, bind_eq_ok.mpr ⟨_, mapError_eq_ok.mpr hhistory, bind_eq_ok.mpr ⟨_,
      mapError_eq_ok.mpr hreturns, mapError_eq_ok.mpr (map_eq_ok.mpr ⟨metrics, hmetrics, rfl⟩)⟩⟩⟩

namespace Metrics

/-- Doubles have figures if there are fewer than two, which have none to be named, or if the periods
fit into a word and the growth of a year into the doubles; all eight figures are named then.  The
growth can only be too much for a gain in less than a year.  A run has a result under the same
condition on its returns. -/
theorem ofReturns_outcome (returns : List Float) {periods : ℤ} (hperiods : 0 < periods) :
    ((∃ metrics, ofReturns returns periods = .ok metrics) ↔ HasFigures returns periods) ∧
    (∀ metrics, ofReturns returns periods = .ok metrics →
      (metrics.elim [] entries).map (·.1) = if returns.length < 2 then [] else names) ∧
    (2 ≤ returns.length → periods < 18446744073709551616 → Outgrown returns periods →
      Quantity.lt Quantity.zero (ScorePortfolio.totalReturn returns) = true ∧
        returns.length < periods) ∧
    ∀ (g : Graph) (c : Client Float) (settings : Settings) (moments : List (Option Instant))
      (history : History Float) (series : Series Float), settings.periodsPerYear = periods →
      g.history c settings moments = .ok history → c.returns history = .ok series →
      series.values = returns →
        ((∃ result, Backtest.run g c settings moments = .ok result) ↔
          HasFigures returns periods) := by
  refine ⟨exists_ofReturns_float hperiods, fun _ h ↦ names_of_ofReturns h,
    fun hcount hword h ↦ h.gain hcount hperiods hword, ?_⟩
  rintro g c settings moments history series rfl hhistory hseries rfl
  exact (Backtest.exists_run hhistory hseries).trans (exists_ofReturns_float hperiods)

theorem gappedMarket_figures : (0 : ℤ) < Settings.standard.periodsPerYear ∧
    (∃ metrics, ofReturns ([0.4375, -0.25] : List Float) 252 = .ok metrics ∧
      (metrics.elim [] entries).map (·.1) = names) ∧
    ∃ result, Backtest.run crossoverGraph gappedMarket.client .standard
      ([⟨4⟩, ⟨6⟩, ⟨8⟩].map some) = .ok result := by
  have hperiods : (0 : ℤ) < Settings.standard.periodsPerYear := by decide
  have hfigures : HasFigures [0.4375, -0.25] Settings.standard.periodsPerYear :=
    .inr ⟨by decide, by decide +kernel⟩
  obtain ⟨hexists, hnames, -, hruns⟩ := ofReturns_outcome [0.4375, -0.25] hperiods
  obtain ⟨metrics, hmetrics⟩ := hexists.mpr hfigures
  obtain ⟨-, -, hreturns⟩ := Client.performance_eq_ok.mp gappedMarket_performance
  exact ⟨hperiods, ⟨metrics, hmetrics, hnames metrics hmetrics⟩,
    (hruns _ _ _ _ _ _ rfl gappedMarket_history hreturns rfl).mpr hfigures⟩

/-- Two finite returns that are outgrown: no figures although all but one could be computed. -/
theorem exists_returns_outgrown : ¬ ∀ (returns : List Float) (periods : ℤ),
    (∀ r ∈ returns, r.isFinite = true) → 0 < periods →
      ∃ metrics, ofReturns returns periods = .ok metrics := by
  intro h
  have hfinite : ∀ r ∈ ([100000, 100000] : List Float), r.isFinite = true := by decide
  have hgrown : Outgrown [100000, 100000] 252 := by decide +kernel
  rcases (exists_ofReturns_float (by decide)).mp (h _ 252 hfinite (by decide)) with hfew | ⟨-, hnot⟩
  · exact absurd hfew (by decide)
  · exact hnot hgrown

end Metrics

end ScorePortfolio

import ScorePortfolio.Market.Simulation
import ScorePortfolio.Proofs.Market.Trends
import Mathlib.Algebra.Order.Floor.Ring
import Mathlib.Data.Rat.Floor
import Mathlib.Tactic.Linarith
import Mathlib.Tactic.Positivity

/-!
# The trend of the simulated market

In exact arithmetic the simulated market has positive prices on all days, and its third asset rises
from day to day.  Of the sine no more is needed than that it stays between minus one and one; the
angles are equally spaced, so the last one, which is set apart, fits in with the others.
-/

namespace ScorePortfolio

namespace Simulation

/-! ## Constants -/

theorem halfTurn_pos : (0 : ℚ) < halfTurn := by
  change (0 : ℚ) < Binary.toRat 3.141592653589793
  decide

theorem amplitude_rat : (Quantity.ofFloat 0.5 : ℚ) = 1 / 2 := by
  change Binary.toRat 0.5 = 1 / 2
  decide +kernel

theorem slope_pos : (0 : ℚ) < Quantity.ofFloat 0.1 := by
  change (0 : ℚ) < Binary.toRat 0.1
  decide

/-! ## Angles -/

/-- The distance between two angles. -/
def spacing (n : ℕ) : ℚ := lastAngle / (n - 1)

variable {n : ℕ}

theorem spacing_pos (hn : 2 ≤ n) : 0 < spacing n := by
  have hn : (2 : ℚ) ≤ n := by exact_mod_cast hn
  have hlast : (0 : ℚ) < lastAngle := mul_pos (by norm_num) halfTurn_pos
  exact div_pos hlast (by linarith)

/-- The angles are evenly spaced from zero on. -/
theorem angles_eq (hn : 2 ≤ n) :
    (angles n : List ℚ) = (List.range n).map fun i : ℕ ↦ i * spacing n := by
  have hspacing : (lastAngle / Quantity.ofInt (n - 1) : ℚ) = spacing n := by
    rw [spacing, Quantity.ofInt_rat]
    push_cast
    rfl
  have hlast : ((n - 1 : ℚ)) * spacing n = lastAngle := by
    have hn : (2 : ℚ) ≤ n := by exact_mod_cast hn
    exact mul_div_cancel₀ _ (by linarith)
  rw [angles, hspacing]
  refine List.map_congr_left fun i _ ↦ ?_
  split
  · next hi =>
    rw [← hlast, ← hi]
    push_cast
    ring
  · rw [Quantity.ofInt_rat, Int.cast_natCast]

/-! ## Prices that rise -/

/-- The prices of the third asset. -/
def risingPrice (n i : ℕ) : ℚ := Quantity.ofInt 10 + Quantity.ofFloat 0.1 * (i * spacing n)

/-- The rising price is larger at each later index. -/
theorem risingPrice_lt (hn : 2 ≤ n) {i j : ℕ} (hij : i < j) :
    risingPrice n i < risingPrice n j := by
  have hij : (i : ℚ) < j := by exact_mod_cast hij
  exact add_lt_add_right (mul_lt_mul_of_pos_left
    (mul_lt_mul_of_pos_right hij (spacing_pos hn)) slope_pos) _

theorem risingPrice_pos (hn : 2 ≤ n) (i : ℕ) : 0 < risingPrice n i := by
  have hspacing := spacing_pos hn
  have hslope := slope_pos
  rw [risingPrice, Quantity.ofInt_rat]
  positivity

/-! ## Days -/

variable {start : Instant}

/-- Whole days are ordered as their numbers. -/
theorem day_lt_day {i j : ℕ} :
    start.after (Instant.perDay * i) < start.after (Instant.perDay * j) ↔ i < j := by
  have hday : (0 : ℤ) < Instant.perDay := by decide
  simp only [Instant.lt_iff, Instant.after, Int.add_lt_add_iff_left, mul_lt_mul_iff_right₀ hday,
    Int.ofNat_lt]

theorem day_le_day {i j : ℕ} (h : i ≤ j) :
    start.after (Instant.perDay * i) ≤ start.after (Instant.perDay * j) :=
  Instant.not_lt.mp fun hlt ↦ h.not_gt (day_lt_day.mp hlt)

theorem days_ascending : (Step.instants start Instant.perDay n).Pairwise (· < ·) :=
  List.pairwise_map.mpr (List.pairwise_lt_range.imp day_lt_day.mpr)

/-! ## The market -/

section Market

variable [Elementary ℚ]

/-- A swing around a level of at least one stays positive, since the sine is at most one. -/
theorem swing_pos (hsine : ∀ x : ℚ, |Elementary.sine x| ≤ 1) {level : ℤ} (hlevel : 1 ≤ level)
    (x : ℚ) : 0 < swing level x := by
  have hlevel : (1 : ℚ) ≤ level := by exact_mod_cast hlevel
  have hlow := (abs_le.mp (hsine x)).1
  rw [swing, amplitude_rat, Quantity.ofInt_rat]
  linarith

/-- The columns have a positive price for each day. -/
theorem columns_spec (hsine : ∀ x : ℚ, |Elementary.sine x| ≤ 1) (hn : 2 ≤ n) :
    ∀ column ∈ (columns n : List (Scalar × List ℚ)),
      column.2.length = n ∧ ∀ x ∈ column.2, 0 < x := by
  have hangles : (angles n : List ℚ).length = n := by
    rw [angles_eq hn, List.length_map, List.length_range]
  simp only [columns, List.forall_mem_cons, List.not_mem_nil, false_implies, implies_true,
    List.length_map, hangles, List.forall_mem_map, true_and, and_true]
  refine ⟨fun x _ ↦ swing_pos hsine (by decide) x, fun x _ ↦ swing_pos hsine (by decide) _, ?_⟩
  rw [angles_eq hn, List.forall_mem_map]
  exact fun i _ ↦ risingPrice_pos hn i

/-- The simulated market over a number of days. -/
def marketOver (n : ℕ) (start : Instant) : Market ℚ :=
  ⟨⟨(Step.instants start Instant.perDay n).map some, columns n⟩, [], closeField⟩

theorem market_eq {days : ℤ} (h : 2 ≤ days) :
    Simulation.market days start = .ok (marketOver days.toNat start) := by
  rw [Simulation.market, prices, if_neg h.not_gt]
  rfl

/-- The simulated market has a price of every asset at every date. -/
theorem marketOver_isQuoted (hsine : ∀ x : ℚ, |Elementary.sine x| ≤ 1) (hn : 2 ≤ n)
    (hrange : ∀ day ∈ Step.instants start Instant.perDay n, day.InRange) :
    (marketOver n start).IsQuoted where
  dated := by
    have hdays : (Step.instants start Instant.perDay n).Nodup := days_ascending.imp Instant.ne_of_lt
    refine ⟨hdays.map (Option.some_injective _), fun d hd ↦ ?_⟩
    obtain ⟨day, hday, rfl⟩ := List.mem_map.mp hd
    exact ⟨day, rfl, hrange day hday⟩
  full := by
    intro column hcolumn
    rw [(columns_spec hsine hn column hcolumn).1]
    simp [marketOver, Step.instants]
  positive := fun column hcolumn ↦ (columns_spec hsine hn column hcolumn).2
  close := rfl

/-- The prices of the rising asset are the rising prices, each on its day. -/
theorem price?_rising (hn : 2 ≤ n) {t : Instant} {p : ℚ}
    (h : (marketOver n start).price? ⟨"C"⟩ t = some p) :
    ∃ i : ℕ, t = start.after (Instant.perDay * i) ∧ p = risingPrice n i := by
  have hcells : (marketOver n start).prices.cells? (.text "C") =
      some ((List.range n).map (risingPrice n)) := by
    change some ((angles n : List ℚ).map fun x ↦
      Quantity.ofInt 10 + Quantity.ofFloat 0.1 * x) = _
    rw [angles_eq hn, List.map_map]
    rfl
  have hlabel : (marketOver n start).labels.lookup "C" = some (.text "C") := by rfl
  simp only [Market.price?, hlabel, hcells, Option.bind_eq_bind, Option.bind_some] at h
  have hmem := Entries.mem_of_lookup h
  simp only [marketOver, Step.instants, List.map_map, List.zip_map', List.mem_map, List.mem_range,
    Prod.mk.injEq, Function.comp_apply, Option.some.injEq] at hmem
  obtain ⟨i, -, rfl, rfl⟩ := hmem
  exact ⟨i, rfl, rfl⟩

/-- The rising asset of the simulated market rises. -/
theorem marketOver_rises (hn : 2 ≤ n) : (marketOver n start).Rises ⟨"C"⟩ where
  known := by
    change (⟨"C"⟩ : Asset) ∈ [⟨"A"⟩, ⟨"B"⟩, ⟨"C"⟩]
    decide
  rise := by
    intro s t p q hlt hp hq
    obtain ⟨i, rfl, rfl⟩ := price?_rising hn hp
    obtain ⟨j, rfl, rfl⟩ := price?_rising hn hq
    exact risingPrice_lt hn (day_lt_day.mp hlt)

end Market

/-! ## An exact market -/

/-- A rational sine: on each half turn a bump, up on one and down on the next. -/
def roughSine (x : ℚ) : ℚ :=
  let turns := ⌊x / halfTurn⌋
  let area := (x - turns * halfTurn) * ((turns + 1) * halfTurn - x)
  let bump := 16 * area / (5 * halfTurn ^ 2 - 4 * area)
  if turns % 2 = 0 then bump else -bump

theorem abs_roughSine_le (x : ℚ) : |roughSine x| ≤ 1 := by
  have hturn : (0 : ℚ) < halfTurn := halfTurn_pos
  have hlow : (⌊x / halfTurn⌋ : ℚ) * halfTurn ≤ x := (le_div_iff₀ hturn).mp (Int.floor_le _)
  have hhigh : x < ((⌊x / halfTurn⌋ : ℚ) + 1) * halfTurn :=
    (div_lt_iff₀ hturn).mp (Int.lt_floor_add_one _)
  simp only [roughSine]
  generalize ((⌊x / halfTurn⌋ : ℤ) : ℚ) = turns at hlow hhigh ⊢
  have harea : 0 ≤ (x - turns * halfTurn) * ((turns + 1) * halfTurn - x) :=
    mul_nonneg (sub_nonneg.mpr hlow) (sub_nonneg.mpr hhigh.le)
  -- the factors add up to half a turn, so their product is largest where they are equal
  have hlargest : 4 * ((x - turns * halfTurn) * ((turns + 1) * halfTurn - x)) ≤ halfTurn ^ 2 := by
    nlinarith [sq_nonneg (2 * x - (2 * turns + 1) * halfTurn)]
  generalize (x - turns * halfTurn) * ((turns + 1) * halfTurn - x) = area at harea hlargest ⊢
  have hbelow : 0 < 5 * halfTurn ^ 2 - 4 * area := by
    have hsquare : (0 : ℚ) < halfTurn ^ 2 := by positivity
    linarith
  have hbump : |16 * area / (5 * halfTurn ^ 2 - 4 * area)| ≤ 1 := by
    rw [abs_of_nonneg (by positivity), div_le_one hbelow]
    linarith
  split
  · exact hbump
  · rwa [abs_neg]

/-- Functions of which only the sine comes in. -/
abbrev roughFunctions : Elementary ℚ := ⟨roughSine, id, fun _ _ ↦ none⟩

/-- The days of the simulated market from its usual first one on. -/
def day (i : ℕ) : Instant := Instant.firstRegular.after (Instant.perDay * i)

theorem day_inRange {i : ℕ} (hi : i ≤ 999) : (day i).InRange := by
  have hfirst : Instant.earliest ≤ day 0 := by decide
  have hlast : day 999 ≤ Instant.latest := by decide
  exact ⟨Instant.le_trans hfirst (day_le_day (Nat.zero_le i)),
    Instant.le_trans (day_le_day hi) hlast⟩

theorem mem_days {n : ℕ} {d : Instant} :
    d ∈ Step.instants .firstRegular Instant.perDay n ↔ ∃ i < n, day i = d := by
  simp [Step.instants, day]

end Simulation

end ScorePortfolio

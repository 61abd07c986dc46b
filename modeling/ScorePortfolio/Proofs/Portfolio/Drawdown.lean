import ScorePortfolio.Proofs.Portfolio.Growth
import ScorePortfolio.Proofs.Portfolio.WithinMarket

/-!
# Drawdown

The deepest decline is measured from the peaks of the growth, and the growth begins after the first
return.  How far the growth is below its peak changes by each return in the same way whatever the
peak is, so in exact arithmetic the deepest decline is the least total return that consecutive
returns after the first have.  A loss made by the first return itself is no decline.
-/

namespace ScorePortfolio

variable {r depth : ℚ} {returns block : List ℚ}

/-! ## Total returns of consecutive returns -/

theorem totalReturn_eq (returns : List ℚ) : totalReturn returns = (returns.map (1 + ·)).prod - 1 :=
  eq_sub_of_add_eq' (one_add_totalReturn returns)

theorem one_add_totalReturn_nil : 1 + totalReturn ([] : List ℚ) = 1 := by
  rw [one_add_totalReturn, List.map_nil, List.prod_nil]

theorem one_add_totalReturn_cons (r : ℚ) (returns : List ℚ) :
    1 + totalReturn (r :: returns) = (1 + r) * (1 + totalReturn returns) := by
  rw [one_add_totalReturn, one_add_totalReturn, List.map_cons, List.prod_cons]

theorem one_add_totalReturn_append (returns returns' : List ℚ) :
    1 + totalReturn (returns ++ returns') =
      (1 + totalReturn returns) * (1 + totalReturn returns') := by
  rw [one_add_totalReturn, one_add_totalReturn, one_add_totalReturn, List.map_append,
    List.prod_append]

theorem one_add_totalReturn_pos (h : ∀ r ∈ returns, -1 < r) : 0 < 1 + totalReturn returns := by
  rw [one_add_totalReturn]
  exact prod_pos_of_returns h

/-! ## Depths -/

/-- The growth after each return as a part of its peak so far, given that part before. -/
def depthsFrom (depth : ℚ) : List ℚ → List ℚ
  | [] => []
  | r :: returns => min 1 (depth * (1 + r)) :: depthsFrom (min 1 (depth * (1 + r))) returns

/-- Along consecutive returns from the start, some depth is as low as what is left of the first. -/
theorem exists_depth_le_mul (h : ∀ r ∈ returns, -1 < r) (hblock : block <+: returns)
    (hne : block ≠ []) : ∃ x ∈ depthsFrom depth returns, x ≤ depth * (1 + totalReturn block) := by
  induction returns generalizing depth block with
  | nil => exact absurd (List.prefix_nil.mp hblock) hne
  | cons r returns ih =>
    obtain rfl | ⟨block, rfl, hstart⟩ := List.prefix_cons_iff.mp hblock
    · exact absurd rfl hne
    have hnext : min 1 (depth * (1 + r)) ≤ depth * (1 + r) := min_le_right _ _
    rw [one_add_totalReturn_cons, ← mul_assoc]
    by_cases hnil : block = []
    · refine ⟨_, List.mem_cons_self, ?_⟩
      rwa [hnil, one_add_totalReturn_nil, mul_one]
    · have hrest : ∀ r ∈ returns, -1 < r := List.forall_mem_of_forall_mem_cons h
      obtain ⟨x, hx, hle⟩ := ih hrest hstart hnil
      have hpos := one_add_totalReturn_pos fun r hr ↦ hrest r (hstart.subset hr)
      exact ⟨x, List.mem_cons_of_mem _ hx, hle.trans (mul_le_mul_of_nonneg_right hnext hpos.le)⟩

/-- Along consecutive returns from anywhere, some depth is as low as what is left of a peak. -/
theorem exists_depth_le (hdepth : depth ≤ 1) (h : ∀ r ∈ returns, -1 < r)
    (hblock : block <:+: returns) (hne : block ≠ []) :
    ∃ x ∈ depthsFrom depth returns, x ≤ 1 + totalReturn block := by
  induction returns generalizing depth with
  | nil => exact absurd (List.infix_nil.mp hblock) hne
  | cons r returns ih =>
    rcases List.infix_cons_iff.mp hblock with hblock | hblock
    · obtain ⟨x, hx, hle⟩ : ∃ x ∈ depthsFrom depth (r :: returns),
          x ≤ depth * (1 + totalReturn block) := exists_depth_le_mul h hblock hne
      have hpos := one_add_totalReturn_pos fun r hr ↦ h r (hblock.subset hr)
      exact ⟨x, hx, hle.trans (mul_le_of_le_one_left hpos.le hdepth)⟩
    · obtain ⟨x, hx, hle⟩ := ih (min_le_left 1 (depth * (1 + r)))
        (List.forall_mem_of_forall_mem_cons h) hblock
      exact ⟨x, List.mem_cons_of_mem _ hx, hle⟩

/-- Each depth is what consecutive returns have left of a peak, or of the first depth. -/
theorem exists_block_of_mem {x : ℚ} (hx : x ∈ depthsFrom depth returns) :
    (∃ block, block <:+: returns ∧ x = 1 + totalReturn block) ∨
      ∃ block, block <+: returns ∧ x = depth * (1 + totalReturn block) := by
  induction returns generalizing depth with
  | nil => cases hx
  | cons r returns ih =>
    have hchoice := min_choice 1 (depth * (1 + r))
    rcases List.mem_cons.mp hx with rfl | hx
    · refine hchoice.imp (fun hone ↦ ⟨[], List.nil_infix, ?_⟩)
        fun hr ↦ ⟨[r], List.prefix_append [r] returns, ?_⟩
      · rw [hone, one_add_totalReturn_nil]
      · rw [hr, one_add_totalReturn_cons, one_add_totalReturn_nil, mul_one]
    · rcases ih hx with ⟨block, hblock, rfl⟩ | ⟨block, hblock, rfl⟩
      · exact .inl ⟨block, List.infix_cons hblock, rfl⟩
      · refine hchoice.imp (fun hone ↦ ⟨block, List.infix_cons hblock.isInfix, ?_⟩)
          fun hr ↦ ⟨r :: block, (List.cons_prefix_cons).mpr ⟨rfl, hblock⟩, ?_⟩
        · rw [hone, one_mul]
        · rw [hr, one_add_totalReturn_cons, mul_assoc]

/-! ## Declines -/

namespace Metrics

theorem larger_rat (x y : ℚ) : larger x y = max x y := by
  rw [larger]
  split
  · next hlt => exact (max_eq_left (of_decide_eq_true hlt : y < x).le).symm
  · next hlt => exact (max_eq_right (not_lt.mp fun hyx ↦ hlt (decide_eq_true hyx))).symm

theorem smaller_rat (x y : ℚ) : smaller x y = min x y := by
  rw [smaller]
  split
  · next hlt => exact (min_eq_left (of_decide_eq_true hlt : x < y).le).symm
  · next hlt => exact (min_eq_right (not_lt.mp fun hxy ↦ hlt (decide_eq_true hxy))).symm

theorem smallest?_rat (xs : List ℚ) : smallest? (xs.map some) = xs.min? := by
  have hsmaller : (smaller : ℚ → ℚ → ℚ) = min := funext₂ smaller_rat
  rw [smallest?, List.filterMap_map, Function.id_comp, List.filterMap_some, hsmaller]
  cases xs <;> rfl

/-- Growth by its new peak, given the one before. -/
theorem div_max_eq {peak growth : ℚ} (hpeak : 0 < peak) (hgrowth : 0 < growth) :
    growth / max peak growth = min 1 (growth / peak) := by
  rcases le_total peak growth with hle | hle
  · rw [max_eq_right hle, div_self hgrowth.ne', min_eq_left ((one_le_div₀ hpeak).mpr hle)]
  · rw [max_eq_left hle, min_eq_right ((div_le_one₀ hpeak).mpr hle)]

/-- A decline is what the depth lacks to one. -/
theorem declinesFrom_growthFrom {peak growth : ℚ} (hpeak : 0 < peak) (hgrowth : 0 < growth)
    (h : ∀ r ∈ returns, -1 < r) : declinesFrom (some peak) (growthFrom growth returns) =
      (depthsFrom (growth / peak) returns).map fun depth ↦ some (depth - 1) := by
  induction returns generalizing peak growth with
  | nil => rfl
  | cons r returns ih =>
    obtain ⟨hr, h⟩ := List.forall_mem_cons.mp h
    have hnext : 0 < growth * (1 + r) := mul_pos hgrowth (by linarith)
    have htop : 0 < max peak (growth * (1 + r)) := lt_max_of_lt_left hpeak
    have hdepth : growth * (1 + r) / max peak (growth * (1 + r)) =
        min 1 (growth / peak * (1 + r)) := by
      rw [div_max_eq hpeak hnext, div_mul_eq_mul_div]
    have hcurve : growthFrom growth (r :: returns) =
        some (growth * (1 + r)) :: growthFrom (growth * (1 + r)) returns := rfl
    rw [hcurve, declinesFrom, Option.elim_some, larger_rat, ih htop hnext h, sub_div,
      div_self htop.ne', hdepth]
    rfl

/-- The first return makes the first peak, and the depths after it do not depend on that. -/
theorem maxDrawdown?_cons (h : ∀ x ∈ r :: returns, -1 < x) :
    maxDrawdown? (r :: returns) = (0 :: (depthsFrom 1 returns).map (· - 1)).min? := by
  obtain ⟨hr, h⟩ := List.forall_mem_cons.mp h
  have hgrowth : (0 : ℚ) < 1 * (1 + r) := by linarith
  have hcurve : equityCurve (r :: returns) =
      some (1 * (1 + r)) :: growthFrom (1 * (1 + r)) returns := rfl
  have hdeclines : declinesFrom none (equityCurve (r :: returns)) =
      (0 :: (depthsFrom 1 returns).map (· - 1)).map some := by
    rw [hcurve, declinesFrom, Option.elim_none, declinesFrom_growthFrom hgrowth hgrowth h,
      div_self hgrowth.ne', sub_self, zero_div, List.map_cons, List.map_map]
    rfl
  rw [maxDrawdown?, hdeclines, smallest?_rat]

/-- The deepest decline is the least total return of consecutive returns after the first. -/
theorem exists_maxDrawdown (h : ∀ x ∈ r :: returns, -1 < x) :
    ∃ d, maxDrawdown? (r :: returns) = some d ∧
      IsLeast {x | ∃ block, block <:+: returns ∧ ScorePortfolio.totalReturn block = x} d := by
  have hnil : ScorePortfolio.totalReturn ([] : List ℚ) = 0 := by
    linarith [one_add_totalReturn_nil]
  obtain ⟨d, hd⟩ := Option.isSome_iff_exists.mp
    (List.isSome_min?_of_ne_nil (List.cons_ne_nil (0 : ℚ) ((depthsFrom 1 returns).map (· - 1))))
  obtain ⟨hmem, hle⟩ := List.min?_eq_some_iff.mp hd
  refine ⟨d, (maxDrawdown?_cons h).trans hd, ?_, ?_⟩
  · rcases List.mem_cons.mp hmem with rfl | hmem
    · exact ⟨[], List.nil_infix, hnil⟩
    obtain ⟨x, hx, rfl⟩ := List.mem_map.mp hmem
    rcases exists_block_of_mem hx with ⟨block, hblock, rfl⟩ | ⟨block, hblock, rfl⟩
    · exact ⟨block, hblock, by ring⟩
    · exact ⟨block, hblock.isInfix, by ring⟩
  · rintro _ ⟨block, hblock, rfl⟩
    by_cases hempty : block = []
    · rw [hempty, hnil]
      exact hle 0 List.mem_cons_self
    · obtain ⟨x, hx, hxle⟩ := exists_depth_le le_rfl (List.forall_mem_cons.mp h).2 hblock hempty
      have hd := hle _ (List.mem_cons_of_mem _ (List.mem_map_of_mem (f := (· - 1)) hx))
      linarith

/-- Growth that is at some time no less than at the start ends no lower than the deepest decline. -/
theorem le_totalReturn_of_recovered {d : ℚ} (h : ∀ r ∈ returns, -1 < r)
    (hd : ∀ block, block <:+: returns.tail → d ≤ ScorePortfolio.totalReturn block) {k : ℕ}
    (hk : 0 < k) (hrecovered : 0 ≤ ScorePortfolio.totalReturn (returns.take k)) :
    d ≤ ScorePortfolio.totalReturn returns := by
  have hafter : d ≤ ScorePortfolio.totalReturn (returns.drop k) := by
    refine hd _ (List.IsSuffix.isInfix ?_)
    rw [← Nat.succ_pred_eq_of_pos hk, ← List.drop_tail]
    exact List.drop_suffix _ _
  have hpos := one_add_totalReturn_pos fun r hr ↦ h r (List.mem_of_mem_drop hr (i := k))
  have hsplit := one_add_totalReturn_append (returns.take k) (returns.drop k)
  rw [List.take_append_drop] at hsplit
  nlinarith [mul_nonneg hrecovered hpos.le]

/-- Returns have figures over a positive number of periods in a machine word, if their growth has an
annual power. -/
theorem exists_ofReturns_rat [Elementary ℚ] {periods : ℤ} (hne : returns ≠ []) (hpos : 0 < periods)
    (hword : periods < 18446744073709551616)
    (hpower : Elementary.power (1 + ScorePortfolio.totalReturn returns)
      (1 / ((returns.length : ℚ) / periods)) ≠ none) :
    ∃ metrics, ofReturns returns periods = .ok metrics := by
  refine exists_ofReturns.mpr (.inr ⟨exists_rootPeriods.mpr ⟨by omega, hword⟩,
    exists_annualized.mpr ⟨hpos.ne', .inr ⟨Bool.eq_false_iff.mpr fun hzero ↦ ?_, hpower⟩⟩⟩)
  have hcast : (0 : ℚ) < returns.length / periods :=
    div_pos (by exact_mod_cast List.length_pos_of_ne_nil hne) (by exact_mod_cast hpos)
  exact hcast.ne' (by simpa using hzero)

/-- The deepest decline is no gain, and no consecutive returns after the first lose more.  Nor do
all together, if the growth is at some time no less than at the start; otherwise what the first
return loses of the start is no part of it.  The figures have it, and they can be computed if the
annual return can. -/
theorem exists_maxDrawdown_le (hcount : 2 ≤ returns.length) (h : ∀ r ∈ returns, -1 < r) :
    ∃ d, maxDrawdown? returns = some d ∧ d ≤ 0 ∧
      (∀ block, block <:+: returns.tail → d ≤ ScorePortfolio.totalReturn block) ∧
      (∀ k, 0 < k → 0 ≤ ScorePortfolio.totalReturn (returns.take k) →
        d ≤ ScorePortfolio.totalReturn returns) ∧
      ∀ [Elementary ℚ] (periods : ℤ),
        (∀ metrics, ofReturns returns periods = .ok metrics →
          (metrics.elim [] entries).lookup "max_drawdown" = some (some d) ∧
          (metrics.elim [] entries).lookup "total_return" =
            some (some (ScorePortfolio.totalReturn returns))) ∧
        (0 < periods → periods < 18446744073709551616 →
          Elementary.power (1 + ScorePortfolio.totalReturn returns)
              (1 / ((returns.length : ℚ) / periods)) ≠ none →
          ∃ metrics, ofReturns returns periods = .ok metrics) := by
  obtain ⟨first, rest, rfl⟩ : ∃ first rest, returns = first :: rest :=
    List.exists_cons_of_length_pos (by omega)
  obtain ⟨d, hd, -, hleast⟩ := exists_maxDrawdown h
  have hblocks (block : List ℚ) (hblock : block <:+: rest) :
      d ≤ ScorePortfolio.totalReturn block := hleast ⟨block, hblock, rfl⟩
  refine ⟨d, hd, hblocks [] List.nil_infix, hblocks,
    fun k hk ↦ le_totalReturn_of_recovered h hblocks hk, fun periods ↦
    ⟨fun metrics hmetrics ↦ ?_, exists_ofReturns_rat (List.cons_ne_nil _ _)⟩⟩
  rw [lookup_maxDrawdown hmetrics, lookup_totalReturn hmetrics, if_neg hcount.not_gt, hd,
    if_neg hcount.not_gt]
  exact ⟨rfl, rfl⟩

/-- Returns that begin with a gain and end in a loss. -/
def slide : List ℚ := [1 / 10, -1 / 5, 1 / 20]

theorem slide_maxDrawdown : 2 ≤ slide.length ∧ (∀ r ∈ slide, -1 < r) ∧
    ∃ d, maxDrawdown? slide = some d ∧ d ≤ ScorePortfolio.totalReturn slide ∧
      ScorePortfolio.totalReturn slide < 0 := by
  have hcount : 2 ≤ slide.length := by decide
  have hreturns : ∀ r ∈ slide, -1 < r := by norm_num [slide]
  have hgain : 0 ≤ ScorePortfolio.totalReturn (slide.take 1) := by norm_num [slide, totalReturn_eq]
  have hloss : ScorePortfolio.totalReturn slide < 0 := by norm_num [slide, totalReturn_eq]
  obtain ⟨d, hd, -, -, hrecovered, -⟩ := exists_maxDrawdown_le hcount hreturns
  exact ⟨hcount, hreturns, d, hd, hrecovered 1 one_pos hgain, hloss⟩

/-- The loss of half at once, of which nothing is recovered, is no decline. -/
theorem exists_loss_without_decline : ¬ ∀ returns : List ℚ, 2 ≤ returns.length →
    (∀ r ∈ returns, -1 < r) → ScorePortfolio.totalReturn returns < 0 →
      ∃ d, maxDrawdown? returns = some d ∧ d ≤ ScorePortfolio.totalReturn returns := by
  intro h
  have hdrawdown : maxDrawdown? ([-1 / 2, 0] : List ℚ) = some 0 := by decide +kernel
  obtain ⟨d, hd, hle⟩ := h [-1 / 2, 0] (by decide) (by decide +kernel) (by decide +kernel)
  obtain rfl := Option.some.inj (hdrawdown.symm.trans hd)
  revert hle
  decide +kernel

end Metrics

end ScorePortfolio

import ScorePortfolio.Proofs.Portfolio.Drawdown

/-!
# Declines from peak to trough

The walk over the growth keeps one peak, the largest so far, and so finds the decline between any
two times: a decline from the growth after one return to that after another is the total return of
the returns between, which are consecutive and do not have the first among them.
-/

namespace ScorePortfolio

variable {returns block : List ℚ} {i j k : ℕ}

/-! ## Growth between two times -/

/-- What one unit has become after the return at a position. -/
def growthAt (returns : List ℚ) (k : ℕ) : ℚ := ((returns.take (k + 1)).map (1 + ·)).prod

theorem growthAt_eq (returns : List ℚ) (k : ℕ) :
    growthAt returns k = 1 + totalReturn (returns.take (k + 1)) :=
  (one_add_totalReturn _).symm

theorem growthAt_pos (h : ∀ r ∈ returns, -1 < r) (k : ℕ) : 0 < growthAt returns k := by
  rw [growthAt_eq]
  exact one_add_totalReturn_pos fun r hr ↦ h r (List.mem_of_mem_take hr)

/-- From one time to a later one, growth is the total return of the returns between. -/
theorem growthAt_div (h : ∀ r ∈ returns, -1 < r) (i k : ℕ) :
    growthAt returns (i + k) / growthAt returns i - 1 =
      totalReturn ((returns.drop (i + 1)).take k) := by
  have hsplit : growthAt returns (i + k) =
      growthAt returns i * (1 + totalReturn ((returns.drop (i + 1)).take k)) := by
    rw [growthAt_eq, growthAt_eq, ← one_add_totalReturn_append, ← List.take_add,
      Nat.add_right_comm]
  rw [hsplit, mul_div_cancel_left₀ _ (growthAt_pos h i).ne', add_sub_cancel_left]

/-- Consecutive returns after the first are those between two times. -/
theorem infix_tail_iff (hne : returns ≠ []) : block <:+: returns.tail ↔
    ∃ i k, i + k < returns.length ∧ block = (returns.drop (i + 1)).take k := by
  obtain ⟨first, rest, rfl⟩ := List.exists_cons_of_ne_nil hne
  simp only [List.tail_cons, List.drop_succ_cons, List.length_cons, Nat.lt_succ_iff]
  constructor
  · rintro ⟨before, after, rfl⟩
    refine ⟨before.length, block.length, by simp, ?_⟩
    rw [List.append_assoc, List.drop_left, List.take_left]
  · rintro ⟨i, k, -, rfl⟩
    exact (List.take_prefix k _).isInfix.trans (List.drop_suffix i rest).isInfix

/-- Returns without a loss have no loss in total. -/
theorem totalReturn_nonneg (h : ∀ r ∈ returns, 0 ≤ r) : 0 ≤ totalReturn returns := by
  induction returns with
  | nil => exact le_rfl
  | cons r returns ih =>
    obtain ⟨hr, h⟩ := List.forall_mem_cons.mp h
    have hcons := one_add_totalReturn_cons r returns
    nlinarith [ih h, mul_nonneg hr (ih h)]

/-! ## The deepest decline -/

namespace Metrics

/-- A number is the deepest decline if no consecutive returns after the first have a total return
below it, and some have it. -/
theorem isLeast_declines (hne : returns ≠ []) (h : ∀ r ∈ returns, -1 < r) {d : ℚ}
    (hd : IsLeast {x | ∃ block, block <:+: returns.tail ∧
      ScorePortfolio.totalReturn block = x} d) :
    IsLeast {x | ∃ i j, i ≤ j ∧ j < returns.length ∧
      x = growthAt returns j / growthAt returns i - 1} d := by
  constructor
  · obtain ⟨block, hblock, rfl⟩ := hd.1
    obtain ⟨i, k, hk, rfl⟩ := (infix_tail_iff hne).mp hblock
    exact ⟨i, i + k, Nat.le_add_right i k, hk, (growthAt_div h i k).symm⟩
  · rintro _ ⟨i, j, hij, hj, rfl⟩
    obtain ⟨k, rfl⟩ := Nat.exists_eq_add_of_le hij
    exact hd.2 ⟨_, (infix_tail_iff hne).mpr ⟨i, k, hj, rfl⟩, (growthAt_div h i k).symm⟩

/-- There is no decline exactly if no return after the first is a loss. -/
theorem eq_zero_iff_of_isLeast {d : ℚ} (hd : IsLeast {x | ∃ block, block <:+: returns ∧
      ScorePortfolio.totalReturn block = x} d) : d = 0 ↔ ∀ r ∈ returns, 0 ≤ r := by
  have hnone : d ≤ 0 := hd.2 ⟨[], List.nil_infix, rfl⟩
  constructor
  · rintro rfl r hr
    obtain ⟨before, after, rfl⟩ := List.append_of_mem hr
    have hone := one_add_totalReturn_cons r []
    rw [one_add_totalReturn_nil, mul_one, add_right_inj] at hone
    exact hone ▸ hd.2 ⟨[r], ⟨before, after, by rw [List.append_assoc, List.singleton_append]⟩, rfl⟩
  · intro h
    obtain ⟨block, hblock, rfl⟩ := hd.1
    exact hnone.antisymm (totalReturn_nonneg fun r hr ↦ h r (hblock.subset hr))

/-- The deepest decline is the least one from the growth after some return to that after the same or
a later one.  Less than everything is lost by it, and nothing exactly if no return after the first
is a loss.  The figures have it, and they can be computed if the annual return can. -/
theorem exists_maxDrawdown_isLeast (hcount : 2 ≤ returns.length) (h : ∀ r ∈ returns, -1 < r) :
    ∃ d, maxDrawdown? returns = some d ∧
      IsLeast {x | ∃ i j, i ≤ j ∧ j < returns.length ∧
        x = growthAt returns j / growthAt returns i - 1} d ∧
      -1 < d ∧ d ≤ 0 ∧ (d = 0 ↔ ∀ r ∈ returns.tail, 0 ≤ r) ∧
      ∀ [Elementary ℚ] (periods : ℤ),
        (∀ metrics, ofReturns returns periods = .ok metrics →
          (metrics.elim [] entries).lookup "max_drawdown" = some (some d)) ∧
        (0 < periods → periods < 18446744073709551616 →
          Elementary.power (1 + ScorePortfolio.totalReturn returns)
              (1 / ((returns.length : ℚ) / periods)) ≠ none →
          ∃ metrics, ofReturns returns periods = .ok metrics) := by
  have hne : returns ≠ [] := List.ne_nil_of_length_pos (by omega)
  obtain ⟨first, rest, rfl⟩ := List.exists_cons_of_ne_nil hne
  obtain ⟨d, hd, hleast⟩ := exists_maxDrawdown h
  have hdepth : -1 < d := by
    obtain ⟨block, hblock, rfl⟩ := hleast.1
    have hpos := one_add_totalReturn_pos fun r hr ↦
      h r (List.mem_cons_of_mem _ (hblock.subset hr))
    linarith
  refine ⟨d, hd, isLeast_declines hne h hleast, hdepth, hleast.2 ⟨[], List.nil_infix, rfl⟩,
    eq_zero_iff_of_isLeast hleast, fun periods ↦ ⟨fun metrics hmetrics ↦ ?_,
      exists_ofReturns_rat hne⟩⟩
  rw [lookup_maxDrawdown hmetrics, if_neg hcount.not_gt, hd]

/-- The fall by a fifth after the first gain is a decline. -/
theorem slide_declines : 2 ≤ slide.length ∧ (∀ r ∈ slide, -1 < r) ∧
    ∃ d, maxDrawdown? slide = some d ∧ d ≤ growthAt slide 1 / growthAt slide 0 - 1 ∧
      growthAt slide 1 / growthAt slide 0 - 1 = -1 / 5 ∧ -1 < d ∧ d ≠ 0 := by
  have hcount : 2 ≤ slide.length := by decide
  have hreturns : ∀ r ∈ slide, -1 < r := by norm_num [slide]
  obtain ⟨d, hd, hleast, hdepth, -, hzero, -⟩ := exists_maxDrawdown_isLeast hcount hreturns
  have hloss : ¬ ∀ r ∈ slide.tail, 0 ≤ r := by norm_num [slide]
  have hfifth : growthAt slide 1 / growthAt slide 0 - 1 = -1 / 5 := by norm_num [slide, growthAt]
  exact ⟨hcount, hreturns, d, hd, hleast.2 ⟨0, 1, by decide, by decide, rfl⟩, hfifth, hdepth,
    mt hzero.mp hloss⟩

end Metrics

end ScorePortfolio

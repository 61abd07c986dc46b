import ScorePortfolio.Proofs.Portfolio.Allocation
import Mathlib.Algebra.BigOperators.Group.List.Basic
import Mathlib.Algebra.BigOperators.Ring.List
import Mathlib.Algebra.Order.BigOperators.Group.List
import Mathlib.Algebra.Order.Field.Rat

/-!
# Weights in exact arithmetic

Each weight is a share of one sum, which is not zero, so in exact arithmetic the weights of an
allocation sum to one.  None is negative, since no score that is shared out is.
-/

namespace ScorePortfolio

theorem Quantity.total_rat (xs : List Rat) : total xs = .ok xs.sum :=
  congrArg Except.ok List.sum_eq_foldl.symm

/-- Exact weights sum to one. -/
theorem sum_of_normalize {scores weights : List (Asset × Rat)}
    (h : normalize scores = .ok weights) : (weights.map (·.2)).sum = 1 := by
  obtain ⟨-, sum, hsum, hne, rfl⟩ := normalize_eq_ok.mp h
  have hsum : (scores.map fun e ↦ longOnly e.2).sum = sum :=
    Except.ok.inj ((Quantity.total_rat _).symm.trans hsum)
  have hne : sum ≠ 0 := by simpa using Bool.eq_false_iff.mp hne
  have hshares : (scores.map fun e ↦ (e.1, longOnly e.2 / sum)).map (·.2) =
      scores.map fun e ↦ longOnly e.2 * sum⁻¹ := by
    rw [List.map_map]
    rfl
  rw [hshares, List.sum_map_mul_right, hsum, mul_inv_cancel₀ hne]

/-- The weights of an allocation sum to one. -/
theorem Graph.sum_of_allocate {g : Graph} {c : Client Rat} {settings : Settings}
    {t : Option Instant} {a : Allocation Rat} (h : g.allocate c settings t = .ok a) :
    (a.weights.map (·.2)).sum = 1 := by
  obtain ⟨_, weights, hweights, hperm⟩ := exists_weights h
  exact ((hperm.map _).sum_eq).trans (sum_of_normalize hweights)

theorem longOnly_nonneg (score : Rat) : 0 ≤ longOnly score := by
  rw [longOnly]
  split
  · next h => exact (of_decide_eq_true h : (0 : Rat) < score).le
  · exact le_refl 0

/-- Exact weights are not negative. -/
theorem nonneg_of_normalize {scores weights : List (Asset × Rat)}
    (h : normalize scores = .ok weights) : ∀ e ∈ weights, 0 ≤ e.2 := by
  obtain ⟨-, sum, hsum, -, rfl⟩ := normalize_eq_ok.mp h
  obtain rfl := Except.ok.inj ((Quantity.total_rat _).symm.trans hsum)
  intro e he
  obtain ⟨e, -, rfl⟩ := List.mem_map.mp he
  refine div_nonneg (longOnly_nonneg _) (List.sum_nonneg fun x hx ↦ ?_)
  obtain ⟨e, -, rfl⟩ := List.mem_map.mp hx
  exact longOnly_nonneg _

/-- No weight of an allocation is negative. -/
theorem Graph.nonneg_of_allocate {g : Graph} {c : Client Rat} {settings : Settings}
    {t : Option Instant} {a : Allocation Rat} (h : g.allocate c settings t = .ok a) :
    ∀ e ∈ a.weights, 0 ≤ e.2 := by
  obtain ⟨_, weights, hweights, hperm⟩ := exists_weights h
  exact fun e he ↦ nonneg_of_normalize hweights e (hperm.mem_iff.mp he)

end ScorePortfolio

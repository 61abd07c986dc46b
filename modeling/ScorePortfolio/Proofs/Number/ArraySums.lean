import ScorePortfolio.Number.ArraySum
import ScorePortfolio.Proofs.Number.Sums
import Mathlib.Algebra.BigOperators.Group.List.Basic
import Mathlib.Tactic.Ring

/-!
# Sums of arrays and plain sums

In exact arithmetic the order of the additions is of no consequence: dealing out the items and
parting the array change nothing, and the sum of an array is the sum of its items.  Doubles round,
so their order counts from eight items on; the sum of fewer is the sum from left to right, bit for
bit, since a running sum that starts at the positive zero is never the negative one.
-/

namespace ScorePortfolio

/-! ## Exact arithmetic -/

namespace Lanes

theorem total_add (sums items : Lanes ℚ) : (sums.add items).total = sums.total + items.total := by
  simp only [add, total]
  ring

/-- Items that are dealt out to the running sums are added to the total of these. -/
theorem addAll_rat (sums : Lanes ℚ) (xs : List ℚ) : sums.addAll xs = sums.total + xs.sum := by
  induction sums, xs using addAll.induct with
  | case1 sums a b c d e f g h items ih =>
    rw [addAll, ih, total_add]
    simp only [total, List.sum_cons]
    ring
  | case2 sums rest hfew =>
    have hfold : rest.foldl (· + ·) (sums.total + 0) = sums.total + rest.foldl (· + ·) 0 :=
      List.foldl_assoc
    rw [addAll, List.sum_eq_foldl, ← hfold, add_zero]
    exact hfew

end Lanes

namespace Quantity

theorem sum_rat (xs : List ℚ) : sum xs = xs.sum := by
  rw [sum, zero_rat, List.sum_eq_foldl]

theorem blockSum_rat (xs : List ℚ) : blockSum xs = xs.sum := by
  rw [blockSum.eq_def]
  split
  · rw [Lanes.addAll_rat]
    simp only [Lanes.total, List.sum_cons]
    ring
  · exact sum_rat _

theorem pairwiseSum_rat (xs : List ℚ) : pairwiseSum xs = xs.sum := by
  induction xs using pairwiseSum.induct with
  | case1 xs hshort => rw [pairwiseSum, if_pos hshort, blockSum_rat]
  | case2 xs hlong ihfirst ihsecond =>
    rw [pairwiseSum, if_neg hlong, ihfirst, ihsecond, ← List.sum_append, List.take_append_drop]

/-- In exact arithmetic the sum of an array is the sum of its items. -/
theorem arraySum_rat (xs : List ℚ) : arraySum xs = xs.sum := by
  rw [arraySum, zero_rat, zero_add, pairwiseSum_rat]

/-! ## Few doubles -/

/-- A list of fewer than eight items is one block, which is not dealt out. -/
theorem pairwiseSum_of_length_lt {α : Type} [Quantity α] {xs : List α} (h : xs.length < 8) :
    pairwiseSum xs = sum xs := by
  rw [pairwiseSum, if_pos (by rw [blockLength]; omega), blockSum.eq_def]
  split
  · simp only [List.length_cons] at h
    omega
  · rfl

end Quantity

namespace Binary

/-- A sum that starts at the positive zero is not the negative one. -/
theorem not_isNegativeZero_sum (xs : List Float) : ¬ IsNegativeZero (Quantity.sum xs) := by
  suffices hfold : ∀ start, ¬ IsNegativeZero start → ¬ IsNegativeZero (xs.foldl (· + ·) start) from
    hfold _ not_isNegativeZero_zero
  induction xs with
  | nil => exact fun _ h ↦ h
  | cons x xs ih => exact fun start h ↦ ih _ (mt isNegativeZero_of_add h)

end Binary

namespace Quantity

/-- Fewer than eight doubles are added from left to right. -/
theorem arraySum_of_length_lt {xs : List Float} (h : xs.length < 8) : arraySum xs = sum xs := by
  rw [arraySum, pairwiseSum_of_length_lt h]
  exact Binary.positiveZero_add (Binary.not_isNegativeZero_sum xs)

/-- Eight tenths and their parts: from left to right the sum would be below 3.6. -/
example : arraySum ([0.1, 0.2, 0.3, 0.4, 0.5, 0.6, 0.7, 0.8] : List Float) = 3.6 := by
  decide +kernel

end Quantity

end ScorePortfolio

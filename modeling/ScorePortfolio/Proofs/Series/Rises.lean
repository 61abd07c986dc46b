import ScorePortfolio.Proofs.Number.ArraySums
import ScorePortfolio.Proofs.Series.Pointwise
import ScorePortfolio.Proofs.Series.TrailingMeans
import Mathlib.Algebra.Order.BigOperators.Group.List
import Mathlib.Algebra.BigOperators.Ring.List

/-!
# Averages of a rise

While values rise, a fast average is above a slow one, since the slow one takes in older values and
all of these are below those of the fast one.  Averages with different windows have different
lengths, but they end at the same moment, and so does what is made of them value by value.
-/

namespace ScorePortfolio

/-! ## Means -/

namespace Quantity

/-- In exact arithmetic a mean is the sum of the items by their number. -/
theorem mean_rat (xs : List ℚ) : mean xs = xs.sum / xs.length := by
  rw [mean, arraySum_rat, ofInt_rat, Int.cast_natCast]

theorem mean_pos {xs : List ℚ} (hne : xs ≠ []) (h : ∀ x ∈ xs, 0 < x) : 0 < mean xs := by
  rw [mean_rat]
  exact div_pos (List.sum_pos xs h hne) (by exact_mod_cast List.length_pos_of_ne_nil hne)

/-- Older values that are all below the newer ones bring the mean down. -/
theorem mean_append_lt {older newer : List ℚ} (holder : older ≠ []) (hnewer : newer ≠ [])
    (h : ∀ x ∈ older, ∀ y ∈ newer, x < y) : mean (older ++ newer) < mean newer := by
  have hsum {xs : List ℚ} {c : ℚ} : (xs.map fun _ ↦ c).sum = xs.length * c := by
    rw [List.map_const', List.sum_replicate, nsmul_eq_mul]
  have hbelow (y : ℚ) (hy : y ∈ newer) : older.sum < older.length * y := by
    have hlt := List.sum_lt_sum_of_ne_nil holder id (fun _ ↦ y) fun x hx ↦ h x hx y hy
    rwa [List.map_id, hsum] at hlt
  have hlt : newer.length * older.sum < older.length * newer.sum := by
    have hlt := List.sum_lt_sum_of_ne_nil hnewer (fun _ ↦ older.sum) _ hbelow
    rwa [hsum, List.sum_map_mul_left, List.map_id'] at hlt
  have hlength : (0 : ℚ) < newer.length := by exact_mod_cast List.length_pos_of_ne_nil hnewer
  have hlengths : (0 : ℚ) < older.length + newer.length := by positivity
  rw [mean_rat, mean_rat, List.sum_append, List.length_append, Nat.cast_add,
    div_lt_div_iff₀ hlengths hlength]
  linarith

/-- In a rise the mean of the later values is the larger, the fewer they are. -/
theorem mean_drop_lt {xs : List ℚ} (h : xs.Pairwise (· < ·)) {i j : ℕ} (hij : i < j)
    (hj : j < xs.length) : mean (xs.drop i) < mean (xs.drop j) := by
  have hsplit : xs.drop i = (xs.drop i).take (j - i) ++ xs.drop j := by
    rw [← Nat.add_sub_of_le hij.le, ← List.drop_drop, Nat.add_sub_cancel_left,
      List.take_append_drop]
  have hrise : (xs.drop i).Pairwise (· < ·) := h.sublist (List.drop_sublist _ _)
  rw [hsplit] at hrise ⊢
  refine mean_append_lt (List.ne_nil_of_length_pos ?_) (List.ne_nil_of_length_pos ?_)
    (List.pairwise_append.mp hrise).2.2
  · rw [List.length_take, List.length_drop]
    omega
  · rw [List.length_drop]
    omega

end Quantity

namespace Series

/-! ## Latest points -/

section Last

variable {α : Type} {s a b : Series α} {t : Instant} {x y : α}

theorem last_of_lastPoint? (h : s.lastPoint? = some (t, x)) : s.last = .ok x := by
  rw [last, h]

/-- In an increasing series, the point that no other is after is the latest one. -/
theorem IsIncreasing.lastPoint?_eq (h : s.IsIncreasing) (hmem : (t, x) ∈ s.points)
    (hlast : ∀ u ∈ s.index, u ≤ t) : s.lastPoint? = some (t, x) := by
  obtain ⟨before, after, hsplit⟩ := List.append_of_mem hmem
  have hinc := isIncreasing_iff.mp h
  rw [hsplit] at hinc
  have hafter : after = [] := by
    refine List.eq_nil_iff_forall_not_mem.mpr fun p hp ↦ ?_
    have hlt := (List.pairwise_cons.mp (List.pairwise_append.mp hinc).2.1).1 p hp
    have hle := hlast p.1 (List.mem_map_of_mem (by simp [hsplit, hp]))
    exact Instant.lt_irrefl _ (Instant.lt_of_lt_of_le hlt hle)
  rw [lastPoint?, hsplit, hafter, List.getLast?_concat]

/-- No moment of an increasing series is after that of its last point. -/
theorem IsIncreasing.le_of_lastPoint? (h : s.IsIncreasing) (hlast : s.lastPoint? = some (t, x)) :
    ∀ u ∈ s.index, u ≤ t := by
  obtain ⟨before, hsplit⟩ := List.getLast?_eq_some_iff.mp hlast
  have hinc := isIncreasing_iff.mp h
  rw [hsplit] at hinc
  intro u hu
  obtain ⟨p, hp, rfl⟩ := List.mem_map.mp hu
  rw [hsplit] at hp
  rcases List.mem_append.mp hp with hp | hp
  · exact Instant.le_of_lt ((List.pairwise_append.mp hinc).2.2 p hp _ (List.mem_singleton_self _))
  · rw [List.mem_singleton.mp hp]
    exact Instant.le_refl t

/-- Two series that end at the same moment are combined there last. -/
theorem lastPoint?_zipWith (ha : a.IsIncreasing) (hb : b.IsIncreasing) (f : α → α → α)
    (hx : a.lastPoint? = some (t, x)) (hy : b.lastPoint? = some (t, y)) :
    (a.zipWith f b).lastPoint? = some (t, f x y) := by
  refine (ha.zipWith hb f).lastPoint?_eq ?_ fun u hu ↦ ?_
  · exact (mem_zipWith ha hb).mpr
      ⟨x, y, List.mem_of_getLast? hx, List.mem_of_getLast? hy, rfl⟩
  · exact ha.le_of_lastPoint? hx u (((zipWith_combines ha hb f).mem_index u).mp hu).1

end Last

/-! ## Averages -/

variable {s a b : Series ℚ} {v w : ℕ}

/-- The mean of the latest values. -/
def recentMean (s : Series ℚ) (w : ℕ) : ℚ := Quantity.mean (s.values.drop (s.length - w))

/-- The mean of positive values is positive. -/
theorem recentMean_pos (hw : 1 ≤ w) (hfit : w ≤ s.length) (hpos : ∀ x ∈ s.values, 0 < x) :
    0 < s.recentMean w := by
  refine Quantity.mean_pos (List.ne_nil_of_length_pos ?_) fun x hx ↦
    hpos x (List.mem_of_mem_drop hx)
  rw [List.length_drop, length_values]
  omega

/-- In a rise, the mean over fewer of the latest values is the larger. -/
theorem recentMean_lt (hv : 1 ≤ v) (hvw : v < w) (hfit : w ≤ s.length)
    (hrise : s.values.Pairwise (· < ·)) : s.recentMean w < s.recentMean v := by
  refine Quantity.mean_drop_lt hrise (by omega) ?_
  rw [length_values]
  omega

/-- A moving average ends at the last moment, with the mean of the latest values. -/
theorem lastPoint?_movingAverage (hw : 1 ≤ w) (hfit : w ≤ s.length) {t : Instant} {x : ℚ}
    (hlast : s.lastPoint? = some (t, x)) :
    (s.movingAverage w).lastPoint? = some (t, s.recentMean w) := by
  have hmeans := movingAverage_trailingMeans hw hfit
  have hlt : s.length - w < (s.movingAverage w).length := by
    rw [hmeans.length]
    exact Nat.lt_succ_self _
  obtain ⟨⟨u, y⟩, hp⟩ : ∃ p, (s.movingAverage w).points[s.length - w]? = some p :=
    ⟨_, List.getElem?_eq_getElem hlt⟩
  have hmoment : some u = some t := by
    have hu := hmeans.moment _ hlt
    rw [index, List.getElem?_map, hp, Nat.sub_add_cancel hfit, ← length_index,
      ← List.getLast?_eq_getElem?, index, List.getLast?_map] at hu
    exact hu.trans (congrArg (Option.map _) hlast)
  have hvalue : some y = some (s.recentMean w) := by
    have hy := hmeans.value _ hlt
    have hwindow : (s.values.drop (s.length - w)).length = w := by
      rw [List.length_drop, length_values]
      omega
    rw [List.take_of_length_le hwindow.le, values, List.getElem?_map, hp] at hy
    rwa [recentMean, Quantity.mean, hwindow]
  rw [lastPoint?, List.getLast?_eq_getElem?, ← length, hmeans.length, Nat.add_sub_cancel, hp,
    Option.some.inj hmoment, Option.some.inj hvalue]

/-- The moving average of positive values is positive everywhere. -/
theorem values_movingAverage_pos (hw : 1 ≤ w) (hpos : ∀ x ∈ s.values, 0 < x) :
    ∀ x ∈ (s.movingAverage w).values, 0 < x := by
  intro x hx
  rw [values_movingAverage hw, List.mem_map] at hx
  obtain ⟨window, hwindow, rfl⟩ := hx
  rw [windows_eq_map hw, List.mem_map] at hwindow
  obtain ⟨i, hi, rfl⟩ := hwindow
  rw [List.mem_range] at hi
  refine Quantity.mean_pos (List.ne_nil_of_length_pos ?_) fun x hx ↦
    hpos x (List.mem_of_mem_drop (List.mem_of_mem_take hx))
  rw [List.length_take, List.length_drop]
  omega

/-! ## The gap between two averages -/

/-- A series of positive values can be divided by. -/
theorem divSeries_of_pos (ha : a.IsIncreasing) (hb : b.IsIncreasing)
    (hpos : ∀ x ∈ b.values, 0 < x) : a.divSeries b = .ok (a.zipWith (· / ·) b) := by
  have hzeros : sharedZeros a b = [] := by
    refine List.filter_eq_nil_iff.mpr fun (t, y) hy ↦ ?_
    have hmem : y ∈ b.values := List.mem_map_of_mem (f := (·.2)) ((mem_align ha hb).2.mp hy).2
    rw [Quantity.eq_rat, Quantity.zero_rat]
    exact (hpos y hmem).ne'
  rw [divSeries, hzeros]

/-- The gap between two averages of positive values, relative to the first one, has a latest value:
that of the means of the latest values. -/
theorem exists_gap (hs : s.IsIncreasing) (hpos : ∀ x ∈ s.values, 0 < x) (hv : 1 ≤ v) (hvw : v < w)
    (hfit : w ≤ s.length) : ∃ spread gap,
      (s.movingAverage v).withSeries .sub (s.movingAverage w) = .ok spread ∧
      spread.withSeries .div (s.movingAverage v) = .ok gap ∧
      gap.last = .ok ((s.recentMean v - s.recentMean w) / s.recentMean v) := by
  have hfast : (s.movingAverage v).IsIncreasing := hs.movingAverage
  have hslow : (s.movingAverage w).IsIncreasing := hs.movingAverage
  obtain ⟨⟨t, x⟩, hlast⟩ : ∃ p, s.lastPoint? = some p :=
    Option.ne_none_iff_exists'.mp fun hnone ↦ by
      rw [length, List.getLast?_eq_none_iff.mp hnone, List.length_nil] at hfit
      omega
  have hfastLast := lastPoint?_movingAverage hv (hvw.le.trans hfit) hlast
  have hslowLast := lastPoint?_movingAverage (hv.trans hvw.le) hfit hlast
  have hspreadLast := lastPoint?_zipWith hfast hslow (· - ·) hfastLast hslowLast
  have hspread := hfast.zipWith hslow (· - ·)
  exact ⟨_, _, rfl, divSeries_of_pos hspread hfast (values_movingAverage_pos hv hpos),
    last_of_lastPoint? (lastPoint?_zipWith hspread hfast (· / ·) hspreadLast hfastLast)⟩

end Series

end ScorePortfolio

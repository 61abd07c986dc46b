import ScorePortfolio.Proofs.Series.Increasing
import ScorePortfolio.Series.Transform

/-!
# Trailing windows

The windows of a list start at each item that has enough items after it, so a prefix of the list has
the first of them.  A moving average has a point for each window, at the last moment of it.
-/

namespace ScorePortfolio

/-! ## Windows -/

section Windows

variable {β : Type} {w : Nat}

/-- There is a window for each position that leaves room for its length. -/
theorem windows_eq_map (hw : 1 ≤ w) (l : List β) :
    windows w l = (List.range (l.length + 1 - w)).map fun i ↦ (l.drop i).take w := by
  induction l with
  | nil =>
    have hzero : 0 + 1 - w = 0 := by omega
    rw [windows, List.length_nil, hzero]
    rfl
  | cons x xs ih =>
    rw [windows, List.length_take, List.length_cons]
    by_cases hlen : w ≤ xs.length + 1
    · have hsucc : xs.length + 1 + 1 - w = xs.length + 1 - w + 1 := by omega
      rw [hsucc, List.range_succ_eq_map, List.map_cons, List.map_map, if_pos (min_eq_left hlen), ih]
      rfl
    · have hzero : xs.length + 1 + 1 - w = 0 := by omega
      rw [hzero, if_neg (by omega)]
      rfl

theorem length_windows (hw : 1 ≤ w) (l : List β) : (windows w l).length = l.length + 1 - w := by
  rw [windows_eq_map hw, List.length_map, List.length_range]

/-- The windows of a prefix are the first ones. -/
theorem windows_take (hw : 1 ≤ w) {l : List β} {k : Nat} (hk : k ≤ l.length) :
    windows w (l.take k) = (windows w l).take (k + 1 - w) := by
  rw [windows_eq_map hw, windows_eq_map hw, ← List.map_take, List.take_range, List.length_take,
    min_eq_left hk, min_eq_left (by omega : k + 1 - w ≤ l.length + 1 - w)]
  refine List.map_congr_left fun i hi ↦ ?_
  have hi : i < k + 1 - w := List.mem_range.mp hi
  rw [List.drop_take, List.take_take, min_eq_left (by omega)]

/-- The window at a position begins there, if there is room for it. -/
theorem getElem?_windows (hw : 1 ≤ w) (l : List β) (i : Nat) :
    (windows w l)[i]? = if i + w ≤ l.length then some ((l.drop i).take w) else none := by
  rw [windows_eq_map hw, List.getElem?_map]
  split
  · next hi =>
    rw [List.getElem?_range (by omega), Option.map_some]
  · next hi =>
    rw [List.getElem?_eq_none (by rw [List.length_range]; omega), Option.map_none]

/-- The windows of a suffix are the last ones. -/
theorem windows_drop (hw : 1 ≤ w) (l : List β) (k : Nat) :
    windows w (l.drop k) = (windows w l).drop k := by
  refine List.ext_getElem? fun i ↦ ?_
  have hfit : i + w ≤ l.length - k ↔ k + i + w ≤ l.length := by omega
  simp only [List.getElem?_drop, getElem?_windows hw, List.length_drop, List.drop_drop, hfit]

end Windows

/-! ## Moving averages -/

namespace Series

variable {α : Type} [Quantity α] {s : Series α} {w : Nat}

/-- Without the first moments there are as many as windows. -/
theorem length_drop_index (hw : 1 ≤ w) : (s.index.drop (w - 1)).length =
    ((windows w s.values).map Quantity.mean).length := by
  rw [List.length_drop, List.length_map, length_windows hw, length_index, length_values]
  omega

theorem index_movingAverage (hw : 1 ≤ w) : (s.movingAverage w).index = s.index.drop (w - 1) :=
  List.map_fst_zip (length_drop_index hw).le

theorem values_movingAverage (hw : 1 ≤ w) :
    (s.movingAverage w).values = (windows w s.values).map Quantity.mean :=
  List.map_snd_zip (length_drop_index hw).ge

theorem length_movingAverage (hw : 1 ≤ w) : (s.movingAverage w).length = s.length + 1 - w := by
  rw [← length_values, values_movingAverage hw, List.length_map, length_windows hw, length_values]

theorem IsIncreasing.movingAverage (h : s.IsIncreasing) : (s.movingAverage w).IsIncreasing :=
  h.sublist ((map_fst_zip_sublist _ _).trans (List.drop_sublist _ _))

theorem sma_eq_ok {w : Int} (hw : 1 ≤ w) (hfit : w ≤ s.length) :
    s.sma w = .ok (s.movingAverage w.toNat) := by
  rw [sma, if_neg (by omega), if_neg (by omega)]

/-- There is no moving average over an empty window, or over one that is longer than the series. -/
theorem sma_eq_error_iff {w : Int} {e : SeriesError} : s.sma w = .error e ↔
    (w < 1 ∧ e = .windowTooSmall w) ∨ (1 ≤ w ∧ s.length < w ∧ e = .windowTooLong w s.length) := by
  by_cases hw : w < 1
  · rw [sma, if_pos hw]
    simp [hw, Int.not_le.mpr hw, eq_comm]
  · rw [sma, if_neg hw]
    have hpos : 1 ≤ w := Int.not_lt.mp hw
    by_cases hlong : s.length < w <;> simp [hw, hpos, hlong, eq_comm]

end Series

end ScorePortfolio

import ScorePortfolio.Proofs.Series.Cut

/-!
# Moving averages look back

Each point of a moving average is the mean of a window of the series that ends at the moment of the
point.  It depends on this window alone: if the series is cut at a moment, on either side, then the
means of what is left are means of the whole series, those of the windows that are left.
-/

namespace ScorePortfolio

namespace Series

variable {α : Type} [Quantity α] {a s x : Series α} {w : Nat}

/-! ## Points -/

/-- The points of a series are the means of the windows of another one: there is one for each place
where a window of `w` points can start, at the last moment of the window, and its value is the sum
of the window, as an array, divided by `w`. -/
structure TrailingMeans (s : Series α) (w : Nat) (x : Series α) : Prop where
  length : x.length = s.length - w + 1
  moment : ∀ j < x.length, x.index[j]? = s.index[j + w - 1]?
  value : ∀ j < x.length,
    x.values[j]? = some (Quantity.arraySum ((s.values.drop j).take w) / Quantity.ofInt w)

/-- A window that fits gives one mean for each place where it can start. -/
theorem movingAverage_trailingMeans (hw : 1 ≤ w) (hfit : w ≤ s.length) :
    TrailingMeans s w (s.movingAverage w) where
  length := by
    rw [length_movingAverage hw]
    omega
  moment j _ := by
    rw [index_movingAverage hw, List.getElem?_drop]
    congr 1
    omega
  value j hj := by
    rw [length_movingAverage hw] at hj
    have hwindow : ((s.values.drop j).take w).length = w := by
      rw [List.length_take, List.length_drop, length_values]
      omega
    rw [values_movingAverage hw, List.getElem?_map, getElem?_windows hw, length_values,
      if_pos (by omega), Option.map_some, Quantity.mean, hwindow]

/-! ## Parts of the series -/

/-- The moving average of a suffix is a suffix of the moving average. -/
theorem movingAverage_suffix (hw : 1 ≤ w) (h : a.points <:+ s.points) :
    (a.movingAverage w).points <:+ (s.movingAverage w).points := by
  obtain ⟨k, hk⟩ : ∃ k, a.points = s.points.drop k := ⟨_, List.suffix_iff_eq_drop.mp h⟩
  have hindex : a.index = s.index.drop k := by rw [index, hk, List.map_drop, index]
  have hvalues : a.values = s.values.drop k := by rw [values, hk, List.map_drop, values]
  suffices (a.movingAverage w).points = (s.movingAverage w).points.drop k from
    this ▸ List.drop_suffix _ _
  calc (a.movingAverage w).points
    _ = ((s.index.drop k).drop (w - 1)).zip
          ((windows w (s.values.drop k)).map Quantity.mean) := by rw [← hindex, ← hvalues]; rfl
    _ = ((s.index.drop (w - 1)).drop k).zip
          (((windows w s.values).map Quantity.mean).drop k) := by
      rw [windows_drop hw, List.map_drop, List.drop_drop, List.drop_drop, Nat.add_comm]
    _ = (s.movingAverage w).points.drop k := List.drop_zipWith.symm

/-! ## Results -/

/-- A moving average fails exactly if its window is empty or longer than the series, and else
consists of the trailing means.  The moving average of what there is up to a moment, or from one on,
is that part of the moving average, if only the window fits. -/
theorem sma_outcome (s : Series α) (w : Int) :
    (∀ e, s.sma w = .error e ↔ (w < 1 ∧ e = .windowTooSmall w) ∨
      (1 ≤ w ∧ s.length < w ∧ e = .windowTooLong w s.length)) ∧
    (∀ e, s.sma w = .error e → e.isDivision = false) ∧
    (1 ≤ w → w ≤ s.length → ∃ x, s.sma w = .ok x ∧ TrailingMeans s w.toNat x) ∧
    (∀ t, 1 ≤ w → w ≤ (s.upTo t).length →
      ∃ x, s.sma w = .ok x ∧ (s.upTo t).sma w = .ok (x.upTo t)) ∧
    (∀ t, 1 ≤ w → w ≤ (s.fromOn t).length → ∃ x y, s.sma w = .ok x ∧
      (s.fromOn t).sma w = .ok y ∧ y.points <:+ x.points) := by
  refine ⟨fun e ↦ sma_eq_error_iff, fun e he ↦ ?_, fun hw hfit ↦ ?_, fun t hw hfit ↦ ?_,
    fun t hw hfit ↦ ?_⟩
  · rcases sma_eq_error_iff.mp he with ⟨-, rfl⟩ | ⟨-, -, rfl⟩ <;> rfl
  · exact ⟨_, sma_eq_ok hw hfit, movingAverage_trailingMeans (by omega) (by omega)⟩
  · have hlen := s.length_upTo_le t
    refine ⟨_, sma_eq_ok hw (by omega), (sma_eq_ok hw hfit).trans (congrArg Except.ok ?_)⟩
    cases t with
    | none => rfl
    | some t => exact (upTo_movingAverage (by omega) (by omega)).symm
  · have hsuffix := s.fromOn_suffix t
    have hlen : (s.fromOn t).length ≤ s.length := hsuffix.length_le
    exact ⟨_, _, sma_eq_ok hw (by omega), sma_eq_ok hw hfit,
      movingAverage_suffix (by omega) hsuffix⟩

/-- Four points. -/
def fourPoints : Series Float := ⟨[(⟨1⟩, 1.0), (⟨2⟩, 3.0), (⟨4⟩, 5.0), (⟨7⟩, 2.0)]⟩

/-- With windows of two points, what there is up to moment 3 has one mean, and what there is from
moment 2 on has the last two; windows of five points do not fit. -/
theorem fourPoints_sma :
    fourPoints.sma 5 = .error (.windowTooLong 5 4) ∧
      (SeriesError.windowTooLong 5 4).isDivision = false ∧
      (∃ x, fourPoints.sma 2 = .ok x ∧ TrailingMeans fourPoints 2 x) ∧
      (∃ x, fourPoints.sma 2 = .ok x ∧
        (fourPoints.upTo (some ⟨3⟩)).sma 2 = .ok (x.upTo (some ⟨3⟩))) ∧
      (∃ x y, fourPoints.sma 2 = .ok x ∧ (fourPoints.fromOn (some ⟨2⟩)).sma 2 = .ok y ∧
        y.points <:+ x.points) := by
  obtain ⟨-, -, hmeans, hupTo, hfromOn⟩ := sma_outcome fourPoints 2
  obtain ⟨herror, hkind, -⟩ := sma_outcome fourPoints 5
  have hlong : fourPoints.sma 5 = .error (.windowTooLong 5 4) :=
    (herror _).mpr (.inr ⟨by decide, by decide, rfl⟩)
  exact ⟨hlong, hkind _ hlong, hmeans (by decide) (by decide), hupTo _ (by decide) (by decide),
    hfromOn _ (by decide) (by decide)⟩

end Series

end ScorePortfolio

import ScorePortfolio.Proofs.Traversal
import ScorePortfolio.Proofs.Series.Shared
import ScorePortfolio.Proofs.Series.Windows
import ScorePortfolio.Series.Arithmetic

/-!
# Cuts commute with operations

An operation on series that are cut at a moment yields the cut of what it yields on the whole
series.  Cutting takes zeros away and adds none, so a division that succeeds on the whole succeeds
on the cuts; it takes points away too, so a window may become too long.
-/

namespace ScorePortfolio

/-! ## Prefixes of lists -/

section Prefixes

variable {β γ : Type} {p : β → Bool}

/-- Dropping items from the part that passes a test drops them from that part alone. -/
theorem takeWhile_drop {l : List β} {n : Nat} (h : n ≤ (l.takeWhile p).length) :
    (l.drop n).takeWhile p = (l.takeWhile p).drop n := by
  induction n generalizing l with
  | zero => rfl
  | succ n ih =>
    cases l with
    | nil => rfl
    | cons x l =>
      by_cases hx : p x = true
      · rw [List.takeWhile_cons_of_pos hx] at h ⊢
        exact ih (Nat.le_of_succ_le_succ h)
      · rw [List.takeWhile_cons_of_neg hx] at h
        cases h

/-- A test of the first components cuts the first list. -/
theorem takeWhile_zip (xs : List β) (ys : List γ) :
    (xs.zip ys).takeWhile (fun q ↦ p q.1) = (xs.takeWhile p).zip ys := by
  induction xs generalizing ys with
  | nil => rfl
  | cons x xs ih =>
    cases ys with
    | nil => simp
    | cons y ys => by_cases hx : p x = true <;> simp [hx, ih]

/-- What is beyond the length of the other list is not paired. -/
theorem zip_take {xs : List β} {n : Nat} (h : xs.length ≤ n) (ys : List γ) :
    xs.zip (ys.take n) = xs.zip ys := by
  induction xs generalizing n ys with
  | nil => rfl
  | cons x xs ih =>
    cases n with
    | zero => cases h
    | succ n =>
      cases ys with
      | nil => simp
      | cons y ys =>
        rw [List.take_succ_cons, List.zip_cons_cons, List.zip_cons_cons,
          ih (Nat.le_of_succ_le_succ h)]

end Prefixes

namespace Series

variable {α β : Type}

/-! ## Cuts -/

theorem eq_of_points {a b : Series α} (h : a.points = b.points) : a = b := by
  cases a
  cases b
  exact congrArg mk h

theorem points_upTo (s : Series α) (t : Instant) :
    (s.upTo (some t)).points = s.points.takeWhile (·.1 ≤ t) := rfl

theorem IsIncreasing.points_upTo {s : Series α} (h : s.IsIncreasing) (t : Instant) :
    (s.upTo (some t)).points = s.points.filter (·.1 ≤ t) :=
  takeWhile_eq_filter (isIncreasing_iff.mp h) t

/-- A cut of a cut is the cut at the earlier moment. -/
theorem upTo_upTo (s : Series α) {t t' : Instant} (h : t ≤ t') :
    (s.upTo (some t')).upTo (some t) = s.upTo (some t) := by
  simp only [upTo, List.takeWhile_takeWhile]
  congr 2
  funext p
  have hle : p.1 ≤ t → p.1 ≤ t' := fun hp ↦ Instant.le_trans hp h
  simpa using hle

theorem index_upTo (s : Series α) (t : Instant) :
    (s.upTo (some t)).index = s.index.takeWhile (· ≤ t) := by
  rw [index, index, points_upTo, List.takeWhile_map]
  rfl

theorem values_upTo (s : Series α) (t : Instant) :
    (s.upTo (some t)).values = s.values.take (s.upTo (some t)).length := by
  rw [values, values, length, points_upTo, ← List.map_take,
    ← List.prefix_iff_eq_take.mp (List.takeWhile_prefix _)]

/-- The points up to a moment come first. -/
theorem upTo_prefix (s : Series α) (t : Option Instant) : (s.upTo t).points <+: s.points := by
  cases t with
  | none => exact List.prefix_rfl
  | some t => exact List.takeWhile_prefix _

theorem length_upTo_le (s : Series α) (t : Option Instant) : (s.upTo t).length ≤ s.length :=
  (s.upTo_prefix t).length_le

/-- Those from a moment on come last. -/
theorem fromOn_suffix (s : Series α) (t : Option Instant) : (s.fromOn t).points <:+ s.points := by
  cases t with
  | none => exact List.nil_suffix
  | some t => exact List.dropWhile_suffix _

/-! ## Operations -/

theorem upTo_map (s : Series α) (f : α → β) (t : Instant) :
    (s.map f).upTo (some t) = (s.upTo (some t)).map f := by
  simp only [map, upTo, List.takeWhile_map]
  rfl

theorem IsIncreasing.zipWith {a b : Series α} (ha : a.IsIncreasing) (hb : b.IsIncreasing)
    (f : α → α → α) : (a.zipWith f b).IsIncreasing := by
  rw [isIncreasing_iff] at ha hb ⊢
  exact List.pairwise_map.mpr (sharedPoints_pairwise ha hb)

theorem sharedPoints_upTo {a b : Series α} (ha : a.IsIncreasing) (hb : b.IsIncreasing)
    (t : Instant) : sharedPoints (a.upTo (some t)).points (b.upTo (some t)).points =
      (sharedPoints a.points b.points).filter (·.1 ≤ t) := by
  rw [ha.points_upTo, hb.points_upTo,
    sharedPoints_filter (isIncreasing_iff.mp ha) (isIncreasing_iff.mp hb)]

/-- Two series may be cut before they are combined, or after. -/
theorem upTo_zipWith {a b : Series α} (ha : a.IsIncreasing) (hb : b.IsIncreasing)
    (f : α → α → α) (t : Instant) :
    (a.zipWith f b).upTo (some t) = (a.upTo (some t)).zipWith f (b.upTo (some t)) := by
  refine eq_of_points ?_
  rw [(ha.zipWith hb f).points_upTo]
  simp only [Series.zipWith, sharedPoints_upTo ha hb, List.filter_map]
  rfl

variable [Quantity α]

theorem sharedZeros_upTo {a b : Series α} (ha : a.IsIncreasing) (hb : b.IsIncreasing)
    (t : Instant) :
    sharedZeros (a.upTo (some t)) (b.upTo (some t)) = (sharedZeros a b).filter (·.1 ≤ t) := by
  simp only [sharedZeros, align, sharedPoints_upTo ha hb, List.filter_map, List.filter_filter,
    Function.comp_def, Bool.and_comm]

/-- The moving average of a cut is the cut of the moving average, if the window fits. -/
theorem upTo_movingAverage {s : Series α} {t : Instant} {w : Nat} (hw : 1 ≤ w)
    (hfit : w ≤ (s.upTo (some t)).length) :
    (s.movingAverage w).upTo (some t) = (s.upTo (some t)).movingAverage w := by
  have hlen : (s.index.takeWhile (· ≤ t)).length = (s.upTo (some t)).length := by
    rw [← index_upTo, length_index]
  have hk : (s.upTo (some t)).length ≤ s.values.length := by
    rw [length_values]
    exact s.length_upTo_le (some t)
  have hdrop : ((s.index.takeWhile (· ≤ t)).drop (w - 1)).length ≤
      (s.upTo (some t)).length + 1 - w := by
    rw [List.length_drop, hlen]
    omega
  refine eq_of_points ?_
  calc
    _ = ((s.index.drop (w - 1)).takeWhile (· ≤ t)).zip
          ((windows w s.values).map Quantity.mean) := takeWhile_zip _ _
    _ = ((s.index.takeWhile (· ≤ t)).drop (w - 1)).zip
          ((windows w s.values).map Quantity.mean) := by rw [takeWhile_drop (by omega)]
    _ = _ := by
      rw [movingAverage, index_upTo, values_upTo, windows_take hw hk, List.map_take,
        zip_take hdrop]

/-! ## Results -/

/-- An operation with a number that succeeds does so up to every moment, with the same values. -/
theorem withScalar_upTo {op : Arithmetic} {s x : Series α} {k : α} (h : s.withScalar op k = .ok x)
    (t : Instant) : (s.upTo (some t)).withScalar op k = .ok (x.upTo (some t)) := by
  cases op with
  | add | sub | mul =>
    obtain rfl := Except.ok.inj h
    exact congrArg Except.ok (upTo_map _ _ _).symm
  | div =>
    simp only [withScalar, div] at h ⊢
    split at h
    · cases h
    · next hk =>
      obtain rfl := Except.ok.inj h
      rw [if_neg hk, upTo_map]

/-- So does an operation on two series, since fewer points share fewer zeros. -/
theorem withSeries_upTo {op : Arithmetic} {a b x : Series α} (ha : a.IsIncreasing)
    (hb : b.IsIncreasing) (h : a.withSeries op b = .ok x) (t : Instant) :
    (a.upTo (some t)).withSeries op (b.upTo (some t)) = .ok (x.upTo (some t)) := by
  cases op with
  | add | sub | mul =>
    obtain rfl := Except.ok.inj h
    exact congrArg Except.ok (upTo_zipWith ha hb _ _).symm
  | div =>
    simp only [withSeries, divSeries] at h ⊢
    split at h
    · next hzeros =>
      obtain rfl := Except.ok.inj h
      rw [sharedZeros_upTo ha hb, hzeros, upTo_zipWith ha hb]
      rfl
    · cases h

/-- A moving average of a cut is the cut of the moving average, or its window is too long. -/
theorem sma_upTo {s x : Series α} {w : Int} (h : s.sma w = .ok x) (t : Instant) :
    (s.upTo (some t)).sma w = .ok (x.upTo (some t)) ∨
      (s.upTo (some t)).length < w ∧
        (s.upTo (some t)).sma w = .error (.windowTooLong w (s.upTo (some t)).length) := by
  simp only [sma] at h ⊢
  split at h
  · cases h
  next hpos =>
  split at h
  · cases h
  obtain rfl := Except.ok.inj h
  rw [if_neg hpos]
  by_cases hshort : (s.upTo (some t)).length < w
  · exact .inr ⟨hshort, if_pos hshort⟩
  · left
    rw [if_neg hshort, upTo_movingAverage (by omega) (by omega)]

/-- An operation with a number keeps the moments. -/
theorem IsIncreasing.withScalar {op : Arithmetic} {s x : Series α} {k : α} (hs : s.IsIncreasing)
    (h : s.withScalar op k = .ok x) : x.IsIncreasing := by
  cases op with
  | add | sub | mul => exact Except.ok.inj h ▸ hs.map _
  | div =>
    simp only [Series.withScalar, div] at h
    split at h
    · cases h
    · exact Except.ok.inj h ▸ hs.map _

/-- The moments of two series that are shared increase like those of each. -/
theorem IsIncreasing.withSeries {op : Arithmetic} {a b x : Series α} (ha : a.IsIncreasing)
    (hb : b.IsIncreasing) (h : a.withSeries op b = .ok x) : x.IsIncreasing := by
  cases op with
  | add | sub | mul => exact Except.ok.inj h ▸ ha.zipWith hb _
  | div =>
    simp only [Series.withSeries, divSeries] at h
    split at h
    · exact Except.ok.inj h ▸ ha.zipWith hb _
    · cases h

/-- The moving average has the later moments of the series. -/
theorem IsIncreasing.sma {s x : Series α} {w : Int} (hs : s.IsIncreasing) (h : s.sma w = .ok x) :
    x.IsIncreasing := by
  simp only [Series.sma] at h
  split at h
  · cases h
  split at h
  · cases h
  · exact Except.ok.inj h ▸ hs.movingAverage

end Series

end ScorePortfolio

import ScorePortfolio.Proofs.Series.Columns
import ScorePortfolio.Proofs.Series.Steps

/-!
# Operations on columns are operations on series

On the columns of a series every operation yields the columns of its result: both sides of a slice
are cut at the same positions, a picked index fits the values picked from either series, and the
dates that windows and changes leave out are as many as the values.
-/

namespace ScorePortfolio

namespace Series

variable {α β : Type}

/-! ## Cuts -/

section Cuts

variable {s : Series α}

theorem slice_zero (s : Series α) (k : Nat) :
    s.columns.slice 0 k = (⟨s.points.take k⟩ : Series α).columns := by
  simp [Columns.slice, columns, index, values]

theorem slice_length (s : Series α) (k : Nat) :
    s.columns.slice k s.values.length = (⟨s.points.drop k⟩ : Series α).columns := by
  simp [Columns.slice, columns, index, values, List.take_of_length_le]

theorem left_none (s : Series α) : s.columns.left none = s.points.length := by
  simp [Columns.left, length]

theorem right_none (s : Series α) : s.columns.right none = s.points.length := by
  simp [Columns.right, length]

theorem left_some (s : Series α) (t : Instant) :
    s.columns.left (some t) = s.points.countP (·.1 < t) := by
  simp only [Columns.left, columns, index, List.countP_map]
  rfl

theorem right_some (s : Series α) (t : Instant) :
    s.columns.right (some t) = s.points.countP (·.1 ≤ t) := by
  simp only [Columns.right, columns, index, List.countP_map]
  rfl

/-- To take the points up to a moment from an increasing series is to slice both columns at the
position after it. -/
theorem IsIncreasing.columns_upTo (h : s.IsIncreasing) (t : Option Instant) :
    (s.upTo t).columns = s.columns.upTo t := by
  cases t with
  | none => rw [Columns.upTo, right_none, slice_zero, List.take_length, Series.upTo]
  | some t =>
    rw [Columns.upTo, right_some, slice_zero, Series.upTo, takeWhile_eq_take (h.upTo_first t)]

/-- The same for the points before a moment. -/
theorem IsIncreasing.columns_before (h : s.IsIncreasing) (t : Option Instant) :
    (s.before t).columns = s.columns.before t := by
  cases t with
  | none => rw [Columns.before, left_none, slice_zero, List.take_length, Series.before]
  | some t =>
    rw [Columns.before, left_some, slice_zero, Series.before, takeWhile_eq_take (h.before_first t)]

/-- The same for the points from a moment on. -/
theorem IsIncreasing.columns_fromOn (h : s.IsIncreasing) (t : Option Instant) :
    (s.fromOn t).columns = s.columns.fromOn t := by
  rw [Columns.fromOn, columns_values, slice_length]
  cases t with
  | none => rw [left_none, List.drop_length, Series.fromOn, empty]
  | some t => rw [left_some, Series.fromOn, dropWhile_eq_drop (h.before_first t)]

/-- The same for the points after a moment. -/
theorem IsIncreasing.columns_after (h : s.IsIncreasing) (t : Option Instant) :
    (s.after t).columns = s.columns.after t := by
  rw [Columns.after, columns_values, slice_length]
  cases t with
  | none => rw [right_none, List.drop_length, Series.after, empty]
  | some t => rw [right_some, Series.after, dropWhile_eq_drop (h.upTo_first t)]

end Cuts

end Series

/-! ## Alignment -/

section Shared

variable {β γ β' γ' : Type}

/-- The shared points are those that a walk along both lists meets. -/
theorem sharedPoints_cons_cons (t u : Instant) (x : β) (y : γ) (ps : List (Instant × β))
    (qs : List (Instant × γ)) :
    sharedPoints ((t, x) :: ps) ((u, y) :: qs) =
      if t < u then sharedPoints ps ((u, y) :: qs)
      else if u < t then sharedPoints ((t, x) :: ps) qs
      else (t, x, y) :: sharedPoints ps qs := by
  by_cases hut : u < t
  · have htu : ¬ t < u := fun htu ↦ Instant.lt_irrefl t (Instant.lt_trans htu hut)
    rw [if_neg htu, if_pos hut, sharedPoints, List.dropWhile_cons_of_pos (by simpa using hut),
      sharedPoints]
  · rw [if_neg hut, sharedPoints, List.dropWhile_cons_of_neg (by simpa using hut)]
    by_cases heq : u = t
    · subst heq
      simp [Instant.lt_irrefl]
    · have htu : t < u := Instant.lt_of_le_of_ne (Instant.not_lt.mp hut) (Ne.symm heq)
      simp [heq, htu]

@[simp] theorem sharedPoints_nil_right (ps : List (Instant × β)) :
    sharedPoints ps ([] : List (Instant × γ)) = [] := by
  cases ps <;> rfl

/-- Values do not decide which points are shared. -/
theorem sharedPoints_map (f : Instant → β → β') (g : Instant → γ → γ') (ps : List (Instant × β))
    (qs : List (Instant × γ)) :
    sharedPoints (ps.map fun (t, x) ↦ (t, f t x)) (qs.map fun (t, y) ↦ (t, g t y)) =
      (sharedPoints ps qs).map fun (t, x, y) ↦ (t, f t x, g t y) := by
  induction ps generalizing qs with
  | nil => rfl
  | cons p ps ihp =>
    obtain ⟨t, x⟩ := p
    induction qs with
    | nil => simp
    | cons q qs ihq =>
      obtain ⟨u, y⟩ := q
      simp only [List.map_cons] at ihq ihp ⊢
      rw [sharedPoints_cons_cons, sharedPoints_cons_cons]
      split
      · exact ihp ((u, y) :: qs)
      split
      · exact ihq
      · next htu hut =>
        have heq : t = u :=
          Instant.eq_iff.mpr (Int.le_antisymm (Int.not_lt.mp hut) (Int.not_lt.mp htu))
        rw [List.map_cons, ihp, heq]

/-- The walk along two indices meets the positions of the shared moments. -/
theorem meet_eq (ts us : List Instant) (i j : Nat) :
    Columns.meet i j (ts.map some) (us.map some) =
      (sharedPoints (ts.zipIdx i) (us.zipIdx j)).map (·.2) := by
  induction ts generalizing us i j with
  | nil => simp [Columns.meet, sharedPoints]
  | cons t ts iht =>
    induction us generalizing j with
    | nil => simp [Columns.meet]
    | cons u us ihu =>
      simp only [List.map_cons, List.zipIdx_cons] at iht ihu ⊢
      rw [Columns.meet, sharedPoints_cons_cons]
      simp only [Instant.stored_some_lt]
      split
      · exact iht (u :: us) (i + 1) j
      split
      · exact ihu (j + 1)
      · rw [List.map_cons, iht us (i + 1) (j + 1)]

end Shared

namespace Series

variable {α : Type}

/-- Each moment with its position, read as the point at the position. -/
theorem zipIdx_index (s : Series α) :
    (s.index.zipIdx.map fun (t, i) ↦ (t, s.points[i]?)) =
      s.points.map fun (t, x) ↦ (t, some (t, x)) := by
  refine List.ext_getElem? fun i ↦ ?_
  simp only [index, List.getElem?_map, List.getElem?_zipIdx, Nat.zero_add]
  cases hi : s.points[i]? with
  | none => rfl
  | some p => simp [hi]

/-- At the positions that the walk meets are the shared points. -/
theorem map_meet (a b : Series α) :
    ((Columns.meet 0 0 a.columns.index b.columns.index).map fun (i, j) ↦
      (a.points[i]?, b.points[j]?)) =
    (sharedPoints a.points b.points).map fun (t, x, y) ↦ (some (t, x), some (t, y)) := by
  have hpoints := sharedPoints_map (fun t x ↦ some (t, x)) (fun t y ↦ some (t, y)) a.points b.points
  have hpositions := sharedPoints_map (fun _ i ↦ a.points[i]?) (fun _ j ↦ b.points[j]?)
    a.index.zipIdx b.index.zipIdx
  rw [zipIdx_index, zipIdx_index, hpoints] at hpositions
  calc _ = ((sharedPoints a.index.zipIdx b.index.zipIdx).map fun (t, i, j) ↦
        (t, a.points[i]?, b.points[j]?)).map (·.2) := by
        rw [columns_index, columns_index, meet_eq, List.map_map, List.map_map]
        rfl
    _ = _ := by
        rw [← hpositions, List.map_map]
        rfl

theorem pick_map {β γ : Type} (f : β → γ) (items : List β) (positions : List Nat) :
    Columns.pick (items.map f) positions = (Columns.pick items positions).map f := by
  simp only [Columns.pick, List.getElem?_map, List.map_filterMap]

/-- The positions that two indexes share pick from the first series what the join keeps of it. -/
theorem pick_left (a b : Series α) :
    Columns.pick a.points ((Columns.meet 0 0 a.columns.index b.columns.index).map (·.1)) =
      (align a b).1.points := by
  have hleft := congrArg (List.filterMap (·.1)) (map_meet a b)
  simp only [List.filterMap_map] at hleft
  rw [Columns.pick, List.filterMap_map]
  refine hleft.trans ?_
  simp [align]

/-- They pick from the second series what the join keeps of that one. -/
theorem pick_right (a b : Series α) :
    Columns.pick b.points ((Columns.meet 0 0 a.columns.index b.columns.index).map (·.2)) =
      (align a b).2.points := by
  have hright := congrArg (List.filterMap (·.2)) (map_meet a b)
  simp only [List.filterMap_map] at hright
  rw [Columns.pick, List.filterMap_map]
  refine hright.trans ?_
  simp [align]

theorem index_align (a b : Series α) : (align a b).2.index = (align a b).1.index := by
  simp [align, index, Function.comp_def]

/-- Both series stay increasing at the moments that they share. -/
theorem IsIncreasing.align {a b : Series α} (ha : a.IsIncreasing) (hb : b.IsIncreasing) :
    (a.align b).1.IsIncreasing ∧ (a.align b).2.IsIncreasing := by
  have hleft : (a.align b).1.IsIncreasing := by
    rw [isIncreasing_iff] at ha hb ⊢
    exact List.pairwise_map.mpr (sharedPoints_pairwise ha hb)
  refine ⟨hleft, ?_⟩
  rw [IsIncreasing, index_align]
  exact hleft

/-- Alignment of columns is alignment of series: one index fits both. -/
theorem columns_align (a b : Series α) :
    Columns.align a.columns b.columns = ((align a b).1.columns, (align a b).2.columns) := by
  have hindex (s : Series α) (positions : List Nat) : Columns.pick s.columns.index positions =
      ((Columns.pick s.points positions).map (·.1)).map some := by
    rw [← pick_map, ← pick_map]
    rfl
  have hvalues (s : Series α) (positions : List Nat) : Columns.pick s.columns.values positions =
      (Columns.pick s.points positions).map (·.2) := by
    rw [← pick_map]
    rfl
  simp only [Columns.align, hindex, hvalues, pick_left, pick_right]
  rw [columns, columns, index_align]
  rfl

theorem columns_zipWith (f : α → α → α) (a b : Series α) :
    (a.zipWith f b).columns = Columns.zipWith f a.columns b.columns := by
  rw [Columns.zipWith, columns_align]
  simp [columns, align, Series.zipWith, index, values, List.zipWith_map, List.zipWith_self]

/-! ## Arithmetic, windows and changes -/

variable [Quantity α]

/-- An operation with a number acts on the values and leaves the index. -/
theorem columns_withScalar (op : Arithmetic) (s : Series α) (k : α) :
    (s.withScalar op k).toOption.map columns = s.columns.withScalar? op k := by
  cases op with
  | add | sub | mul => exact congrArg some (columns_map _ s)
  | div =>
    rw [withScalar, div, Columns.withScalar?]
    split
    · rfl
    · exact congrArg some (columns_map _ s)

/-- An operation on two series acts on the values that are picked at the shared dates, and fails
where that one does. -/
theorem columns_withSeries (op : Arithmetic) (a b : Series α) :
    (a.withSeries op b).toOption.map columns = a.columns.withSeries? op b.columns := by
  cases op with
  | add | sub | mul => exact congrArg some (columns_zipWith _ a b)
  | div =>
    have hzeros : (Columns.align a.columns b.columns).2.values.any (Quantity.eq · Quantity.zero) =
        !(sharedZeros a b).isEmpty := by
      rw [columns_align, columns_values, values, List.any_map, sharedZeros, Bool.eq_iff_iff]
      simp
    simp only [withSeries, divSeries, Columns.withSeries?, hzeros]
    cases sharedZeros a b with
    | nil => exact congrArg some (columns_zipWith _ a b)
    | cons _ _ => rfl

/-- The moving average drops the first dates and takes the means of the windows of values. -/
theorem columns_sma (s : Series α) (window : Int) :
    (s.sma window).toOption.map columns = s.columns.sma? window := by
  rw [sma, Columns.sma?, columns_values, length_values]
  by_cases hsmall : window < 1
  · rw [if_pos hsmall, if_pos (.inl hsmall)]
    rfl
  by_cases hlong : s.length < window
  · rw [if_neg hsmall, if_pos hlong, if_pos (.inr hlong)]
    rfl
  · rw [if_neg hsmall, if_neg hlong, if_neg (by simp [hsmall, hlong])]
    have hw : 1 ≤ window.toNat := by omega
    refine congrArg some ?_
    rw [columns, index_movingAverage hw, values_movingAverage hw, List.map_drop]
    rfl

/-- Consecutive items are those but the last beside those but the first. -/
theorem steps_eq_zip {β : Type} (l : List β) : steps l = l.dropLast.zip l.tail := by
  induction l with
  | nil => rfl
  | cons x l ih =>
    cases l with
    | nil => rfl
    | cons y l => rw [steps_cons_cons, ih, List.dropLast_cons_cons, List.tail_cons, List.tail_cons,
        List.zip_cons_cons]

theorem index_changes (s : Series α) : s.changes.index = s.index.tail := by
  rw [index, index, ← List.map_tail, ← map_snd_steps, changes, List.map_map, List.map_map]
  rfl

/-- The values of the changes are those of consecutive values. -/
theorem values_changes (s : Series α) :
    s.changes.values = List.zipWith Quantity.change s.values.dropLast s.values.tail := by
  rw [← List.map_uncurry_zip_eq_zipWith, ← steps_eq_zip, values, values, steps_map, changes,
    List.map_map, List.map_map]
  rfl

/-- The relative changes drop the first date, and fail if a value but the last is zero. -/
theorem columns_relativeChange (s : Series α) :
    s.relativeChange.toOption.map columns = s.columns.relativeChange? := by
  have hcolumns : s.changes.columns =
      ⟨s.columns.index.tail, List.zipWith Quantity.change s.values.dropLast s.values.tail⟩ := by
    rw [columns, index_changes, values_changes, columns_index, List.map_tail]
  rw [relativeChange, Columns.relativeChange?, columns_values, length_values]
  by_cases hshort : s.length < 2
  · have hprevious : s.values.dropLast = [] := by
      apply List.eq_nil_of_length_eq_zero
      rw [List.length_dropLast, length_values]
      omega
    have hindex : s.columns.index.tail = [] := by
      apply List.eq_nil_of_length_eq_zero
      rw [List.length_tail, columns_index, List.length_map, length_index]
      omega
    rw [if_pos hshort, hprevious, if_neg (by simp)]
    refine congrArg some (hcolumns.trans ?_)
    rw [hindex, hprevious, List.zipWith_nil_left, Columns.empty]
  · rw [if_neg hshort]
    simp only
    split
    · rfl
    · exact congrArg some hcolumns

end Series

end ScorePortfolio

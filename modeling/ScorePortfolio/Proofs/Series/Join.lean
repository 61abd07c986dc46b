import ScorePortfolio.Proofs.Series.ColumnOperations

/-!
# Joins of series

Two increasing lists of moments are walked side by side, and the walk notes the positions at which
it meets a moment that both have.  It misses none: every shared moment has a pair of positions, and
the pairs come in the order of the moments.  Two series restricted to these positions have one index
between them, the moments that both have, each series with its own values.
-/

namespace ScorePortfolio

variable {left right : List Instant}

/-! ## Positions -/

/-- The positions in two lists are those of the moments that the lists share, in order. -/
structure PairsShared (left right : List Instant) (positions : List Nat × List Nat) : Prop where
  lengths : positions.1.length = positions.2.length
  left_lt : positions.1.Pairwise (· < ·)
  right_lt : positions.2.Pairwise (· < ·)
  /-- The positions exist, and hold the same moment. -/
  same : ∀ i j, (i, j) ∈ positions.1.zip positions.2 →
    ∃ t, left[i]? = some t ∧ right[j]? = some t
  /-- No shared moment is left out. -/
  complete : ∀ t ∈ left, t ∈ right →
    ∃ i j, (i, j) ∈ positions.1.zip positions.2 ∧ left[i]? = some t ∧ right[j]? = some t

theorem zipIdx_pairwise (h : left.Pairwise (· < ·)) : left.zipIdx.Pairwise (·.1 < ·.1) := by
  rw [← List.pairwise_map (f := Prod.fst), List.zipIdx_map_fst]
  exact h

/-- In an increasing list the later of two moments has the greater position. -/
theorem lt_of_getElem?_lt (h : left.Pairwise (· < ·)) {i j : Nat} {t u : Instant}
    (hi : left[i]? = some t) (hj : left[j]? = some u) (htu : t < u) : i < j := by
  obtain ⟨hi', rfl⟩ := List.getElem?_eq_some_iff.mp hi
  obtain ⟨hj', rfl⟩ := List.getElem?_eq_some_iff.mp hj
  rcases Nat.lt_trichotomy i j with hij | rfl | hji
  · exact hij
  · exact absurd htu (Instant.lt_irrefl _)
  · have hut := List.pairwise_iff_getElem.mp h j i hj' hi' hji
    exact absurd (Instant.lt_trans htu hut) (Instant.lt_irrefl _)

/-- The walk meets the moments that are in both lists, each with its positions. -/
theorem mem_sharedPoints_zipIdx (hl : left.Pairwise (· < ·)) (hr : right.Pairwise (· < ·))
    {t : Instant} {i j : Nat} : (t, i, j) ∈ sharedPoints left.zipIdx right.zipIdx ↔
      left[i]? = some t ∧ right[j]? = some t := by
  rw [mem_sharedPoints (zipIdx_pairwise hl) (zipIdx_pairwise hr), List.mem_zipIdx_iff_getElem?,
    List.mem_zipIdx_iff_getElem?]

theorem zip_sharedPositions (left right : List Instant) :
    (sharedPositions left right).1.zip (sharedPositions left right).2 =
      (sharedPoints left.zipIdx right.zipIdx).map (·.2) :=
  List.zip_unzip _

/-- The positions along either list increase with the moments that the walk meets. -/
theorem pairwise_positions (hl : left.Pairwise (· < ·)) (hr : right.Pairwise (· < ·))
    {list : List Instant} (h : list.Pairwise (· < ·)) (position : Nat × Nat → Nat)
    (hat : ∀ t ij, (t, ij) ∈ sharedPoints left.zipIdx right.zipIdx →
      list[position ij]? = some t) :
    ((sharedPoints left.zipIdx right.zipIdx).map fun p ↦ position p.2).Pairwise (· < ·) := by
  have hmoments := sharedPoints_pairwise (zipIdx_pairwise hl) (zipIdx_pairwise hr)
  refine List.pairwise_map.mpr (hmoments.imp_of_mem fun {p q} hp hq hlt ↦ ?_)
  exact lt_of_getElem?_lt h (hat p.1 p.2 hp) (hat q.1 q.2 hq) hlt

/-- The walk along both lists finds the positions of all shared moments, in order. -/
theorem sharedPositions_pairsShared (hl : left.Pairwise (· < ·)) (hr : right.Pairwise (· < ·)) :
    PairsShared left right (sharedPositions left right) where
  lengths := by simp [sharedPositions]
  left_lt := by
    have h := pairwise_positions hl hr hl Prod.fst fun t ij hp ↦
      ((mem_sharedPoints_zipIdx hl hr).mp hp).1
    simpa [sharedPositions, List.unzip_eq_map, Function.comp_def] using h
  right_lt := by
    have h := pairwise_positions hl hr hr Prod.snd fun t ij hp ↦
      ((mem_sharedPoints_zipIdx hl hr).mp hp).2
    simpa [sharedPositions, List.unzip_eq_map, Function.comp_def] using h
  same i j h := by
    rw [zip_sharedPositions] at h
    obtain ⟨⟨t, _⟩, hmem, rfl⟩ := List.mem_map.mp h
    exact ⟨t, (mem_sharedPoints_zipIdx hl hr).mp hmem⟩
  complete t ht ht' := by
    obtain ⟨i, hi⟩ := List.mem_iff_getElem?.mp ht
    obtain ⟨j, hj⟩ := List.mem_iff_getElem?.mp ht'
    have hmem := (mem_sharedPoints_zipIdx hl hr).mpr ⟨hi, hj⟩
    refine ⟨i, j, ?_, hi, hj⟩
    rw [zip_sharedPositions]
    exact List.mem_map_of_mem hmem

/-! ## Aligned series -/

/-- The walk meets the same moments whichever list comes first. -/
theorem sharedPoints_comm {β γ : Type} (ps : List (Instant × β)) (qs : List (Instant × γ)) :
    sharedPoints qs ps = (sharedPoints ps qs).map fun (t, x, y) ↦ (t, y, x) := by
  induction ps generalizing qs with
  | nil => rw [sharedPoints_nil_right]; rfl
  | cons p ps ihp =>
    obtain ⟨t, x⟩ := p
    induction qs with
    | nil => rw [sharedPoints_nil_right]; rfl
    | cons q qs ihq =>
      obtain ⟨u, y⟩ := q
      rw [sharedPoints_cons_cons, sharedPoints_cons_cons]
      rcases Instant.lt_trichotomy t u with htu | rfl | hut
      · rw [if_neg (Instant.lt_asymm htu), if_pos htu, if_pos htu, ihp]
      · simp only [if_neg (Instant.lt_irrefl t), List.map_cons, ihp]
      · rw [if_pos hut, if_neg (Instant.lt_asymm hut), if_pos hut, ihq]

namespace Series

variable {α : Type} {a b : Series α}

/-- Two series are what two others have at the moments that these share. -/
structure Joins (a b : Series α) (joined : Series α × Series α) : Prop where
  index_eq : joined.1.index = joined.2.index
  isIncreasing : joined.1.IsIncreasing
  mem_index : ∀ t, t ∈ joined.1.index ↔ t ∈ a.index ∧ t ∈ b.index
  left : ∀ t ∈ joined.1.index, joined.1.get? (some t) = a.get? (some t)
  right : ∀ t ∈ joined.1.index, joined.2.get? (some t) = b.get? (some t)

theorem get?_eq_some (h : a.IsIncreasing) {t : Instant} {x : α} :
    a.get? (some t) = some x ↔ (t, x) ∈ a.points :=
  lookup_eq_some (isIncreasing_iff.mp h)

theorem mem_index_iff {t : Instant} : t ∈ a.index ↔ ∃ x, (t, x) ∈ a.points := by
  simp [index]

/-- The join keeps the points whose moments the other series has too. -/
theorem mem_align (ha : a.IsIncreasing) (hb : b.IsIncreasing) {t : Instant} {x : α} :
    ((t, x) ∈ (align a b).1.points ↔ (t, x) ∈ a.points ∧ t ∈ b.index) ∧
      ((t, x) ∈ (align a b).2.points ↔ t ∈ a.index ∧ (t, x) ∈ b.points) := by
  have hmem {y z : α} : (t, y, z) ∈ sharedPoints a.points b.points ↔
      (t, y) ∈ a.points ∧ (t, z) ∈ b.points :=
    mem_sharedPoints (isIncreasing_iff.mp ha) (isIncreasing_iff.mp hb)
  simp [align, mem_index_iff, hmem]

/-- What the walk finds is what the two series have at the moments they share. -/
theorem align_joins (ha : a.IsIncreasing) (hb : b.IsIncreasing) : Joins a b (align a b) := by
  obtain ⟨hleft, hright⟩ := ha.align hb
  have hindex (t : Instant) : t ∈ (align a b).1.index ↔ t ∈ a.index ∧ t ∈ b.index := by
    rw [mem_index_iff]
    simp only [(mem_align ha hb).1, exists_and_right, ← mem_index_iff]
  refine ⟨(index_align a b).symm, hleft, hindex, fun t ht ↦ ?_, fun t ht ↦ ?_⟩
  · refine Option.ext fun x ↦ ?_
    rw [get?_eq_some hleft, get?_eq_some ha, (mem_align ha hb).1]
    exact and_iff_left ((hindex t).mp ht).2
  · refine Option.ext fun x ↦ ?_
    rw [get?_eq_some hright, get?_eq_some hb, (mem_align ha hb).2]
    exact and_iff_right ((hindex t).mp ht).1

theorem align_swap (a b : Series α) : align b a = (align a b).swap := by
  simp [align, sharedPoints_comm a.points b.points, Function.comp_def]

/-- At the positions of shared moments are the points of the aligned series. -/
theorem points_align (a b : Series α) :
    (align a b).1.points.map some =
        (sharedPositions a.index b.index).1.map (a.points[·]?) ∧
      (align a b).2.points.map some =
        (sharedPositions a.index b.index).2.map (b.points[·]?) := by
  have hmeet := map_meet a b
  rw [columns_index, columns_index, meet_eq] at hmeet
  have hleft := congrArg (List.map Prod.fst) hmeet
  have hright := congrArg (List.map Prod.snd) hmeet
  simp only [List.map_map, Function.comp_def] at hleft hright
  simp only [align, sharedPositions, List.unzip_eq_map, List.map_map, Function.comp_def]
  exact ⟨hleft.symm, hright.symm⟩

end Series

/-- Side by side, two increasing lists are found to share all the moments that they share; so
aligned series are joined on the moments that both have, in either order of the two. -/
theorem shared_of_increasing {left right : List Instant} (hl : left.Pairwise (· < ·))
    (hr : right.Pairwise (· < ·)) :
    PairsShared left right (sharedPositions left right) ∧
      ∀ {α : Type} (a b : Series α), a.index = left → b.index = right →
        Series.Joins a b (a.align b) ∧ b.align a = (a.align b).swap ∧
        (a.align b).1.points.map some = (sharedPositions left right).1.map (a.points[·]?) ∧
        (a.align b).2.points.map some = (sharedPositions left right).2.map (b.points[·]?) := by
  refine ⟨sharedPositions_pairsShared hl hr, ?_⟩
  rintro α a b rfl rfl
  exact ⟨Series.align_joins hl hr, Series.align_swap a b, Series.points_align a b⟩

/-- Two series that share the second and the last of their days. -/
theorem oddDays_shared :
    let a : Series Rat := ⟨[(⟨1⟩, 10), (⟨3⟩, 30), (⟨4⟩, 40), (⟨9⟩, 90)]⟩
    let b : Series Rat := ⟨[(⟨0⟩, -1), (⟨2⟩, -2), (⟨3⟩, -3), (⟨7⟩, -7), (⟨9⟩, -9)]⟩
    a.index.Pairwise (· < ·) ∧ b.index.Pairwise (· < ·) ∧
      sharedPositions a.index b.index = ([1, 3], [2, 4]) ∧
      PairsShared a.index b.index ([1, 3], [2, 4]) ∧
      b.align a = (⟨[(⟨3⟩, -3), (⟨9⟩, -9)]⟩, ⟨[(⟨3⟩, 30), (⟨9⟩, 90)]⟩) := by
  intro a b
  have ha : a.index.Pairwise (· < ·) := by decide
  have hb : b.index.Pairwise (· < ·) := by decide
  have hpositions : sharedPositions a.index b.index = ([1, 3], [2, 4]) := by rfl
  obtain ⟨hpairs, halign⟩ := shared_of_increasing ha hb
  refine ⟨ha, hb, hpositions, hpositions ▸ hpairs, ?_⟩
  rw [(halign a b rfl rfl).2.1]
  rfl

end ScorePortfolio

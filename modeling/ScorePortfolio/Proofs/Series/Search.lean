import ScorePortfolio.Proofs.Series.Join
import ScorePortfolio.Proofs.Series.Made

/-!
# Cuts and look-up by binary search

In a series whose moments increase, the place of a moment can be found by halving.  A search that
stops in front of the moment, and one that stops behind it, give the positions at which the four
cuts divide the two sides of a series, and the one position at which a look-up has to look.  What
they find is what a scan of all points finds.
-/

namespace ScorePortfolio

/-! ## Halving -/

section Halving

variable {β : Type} {p : β → Bool} {l : List β} {start stop i : Nat}

/-- The first position between two others whose item fails a test, found by halving: an item in the
middle that passes has only passing items before it. -/
def bisect (p : β → Bool) (l : List β) (start stop : Nat) : Nat :=
  if start < stop then
    let middle := start + (stop - start) / 2
    if l[middle]?.any p then bisect p l (middle + 1) stop else bisect p l start middle
  else start
termination_by stop - start

/-- If the items that pass come first, then they are those at the positions below their number. -/
theorem any_getElem?_iff (h : l.Pairwise fun a b ↦ p b = true → p a = true) :
    l[i]?.any p = true ↔ i < l.countP p := by
  induction l generalizing i with
  | nil => simp
  | cons a l ih =>
    obtain ⟨ha, hl⟩ := List.pairwise_cons.mp h
    by_cases hp : p a = true
    · rw [List.countP_cons_of_pos hp]
      cases i with
      | zero => simp [hp]
      | succ i => rw [List.getElem?_cons_succ, ih hl, Nat.add_lt_add_iff_right]
    · have hnone : l.countP p = 0 := List.countP_eq_zero.mpr fun b hb hpb ↦ hp (ha b hb hpb)
      rw [List.countP_cons_of_neg hp]
      cases i with
      | zero => simp [hp, hnone]
      | succ i =>
        rw [List.getElem?_cons_succ, ih hl, hnone]
        omega

/-- The search keeps the position that it looks for between its bounds. -/
theorem bisect_eq (h : l.Pairwise fun a b ↦ p b = true → p a = true)
    (hstart : start ≤ l.countP p) (hstop : l.countP p ≤ stop) :
    bisect p l start stop = l.countP p := by
  -- an item that passes lies in front of the place, one that fails lies at it or behind
  fun_induction bisect p l start stop with
  | case1 start stop _ middle hpass ih =>
    exact ih ((any_getElem?_iff h).mp hpass) hstop
  | case2 start stop _ middle hfail ih =>
    exact ih hstart (Nat.not_lt.mp (mt (any_getElem?_iff h).mpr hfail))
  | case3 start stop hempty => omega

theorem bisect_eq_countP (h : l.Pairwise fun a b ↦ p b = true → p a = true) :
    bisect p l 0 l.length = l.countP p :=
  bisect_eq h (Nat.zero_le _) List.countP_le_length

end Halving

/-! ## Cuts -/

/-- Whether a cut at a moment keeps the points of another one.  The missing moment is after all
others. -/
def Cut.keeps : Cut → Option Instant → Instant → Bool
  | .upTo, some t, d => d ≤ t
  | .before, some t, d => d < t
  | .fromOn, some t, d => t ≤ d
  | .after, some t, d => t < d
  | .upTo, none, _ | .before, none, _ => true
  | .fromOn, none, _ | .after, none, _ => false

/-- What is not before a moment is from it on. -/
theorem Cut.keeps_fromOn (t : Option Instant) (d : Instant) :
    Cut.fromOn.keeps t d = !Cut.before.keeps t d := by
  cases t with
  | none => rfl
  | some t => rw [keeps, keeps, ← decide_not, decide_eq_decide, Instant.not_lt]

/-- What is not up to a moment is after it. -/
theorem Cut.keeps_after (t : Option Instant) (d : Instant) :
    Cut.after.keeps t d = !Cut.upTo.keeps t d := by
  cases t with
  | none => rfl
  | some t => rw [keeps, keeps, ← decide_not, decide_eq_decide, Instant.not_le]

theorem Cut.keeps_upTo (t : Option Instant) (d : Instant) :
    Cut.upTo.keeps t d = Instant.missingLastLE (some d) t := by
  cases t <;> rfl

/-- The earlier of two moments. -/
def Instant.earlier (t t' : Option Instant) : Option Instant :=
  if missingLastLE t t' then t else t'

/-- To cut at two moments is to cut at the earlier one. -/
theorem Cut.keeps_earlier (t t' : Option Instant) (d : Instant) :
    Cut.upTo.keeps (Instant.earlier t t') d = true ↔
      Cut.upTo.keeps t d = true ∧ Cut.upTo.keeps t' d = true := by
  rw [keeps_upTo, keeps_upTo, keeps_upTo, Instant.earlier]
  split
  · next hle =>
    exact ⟨fun hd ↦ ⟨hd, Instant.missingLastLE_trans hd hle⟩, And.left⟩
  · next hle =>
    have hge : Instant.missingLastLE t' t = true :=
      (Bool.or_eq_true_iff.mp (Instant.missingLastLE_total t t')).resolve_left hle
    exact ⟨fun hd ↦ ⟨Instant.missingLastLE_trans hd hge, hd⟩, And.right⟩

namespace Series

variable {α : Type} {s : Series α}

/-- The position of the first moment that is not before a given one. -/
def left (s : Series α) (t : Option Instant) : Nat :=
  bisect (Cut.before.keeps t) s.index 0 s.index.length

/-- The position of the first moment after a given one. -/
def right (s : Series α) (t : Option Instant) : Nat :=
  bisect (Cut.upTo.keeps t) s.index 0 s.index.length

/-- A cut of both sides of a series, at the position that a search yields. -/
def searched (s : Series α) (t : Option Instant) : Cut → Columns α
  | .upTo => s.columns.slice 0 (s.right t)
  | .before => s.columns.slice 0 (s.left t)
  | .fromOn => s.columns.slice (s.left t) s.values.length
  | .after => s.columns.slice (s.right t) s.values.length

/-- The value at exactly a moment, if the position that a search yields has this moment. -/
def searched? (s : Series α) (t : Option Instant) : Option α :=
  s.index[s.left t]?.bind fun d ↦ if some d = t then s.values[s.left t]? else none

/-! ## Positions -/

theorem IsIncreasing.keeps_upTo_first (h : s.IsIncreasing) (t : Option Instant) :
    s.points.Pairwise fun p q ↦ Cut.upTo.keeps t q.1 = true → Cut.upTo.keeps t p.1 = true := by
  cases t with
  | none => exact List.pairwise_of_forall fun _ _ _ ↦ rfl
  | some t => exact h.upTo_first t

theorem IsIncreasing.keeps_before_first (h : s.IsIncreasing) (t : Option Instant) :
    s.points.Pairwise fun p q ↦
      Cut.before.keeps t q.1 = true → Cut.before.keeps t p.1 = true := by
  cases t with
  | none => exact List.pairwise_of_forall fun _ _ _ ↦ rfl
  | some t => exact h.before_first t

/-- The position after a moment is the number of points up to it. -/
theorem IsIncreasing.right_eq (h : s.IsIncreasing) (t : Option Instant) :
    s.right t = s.points.countP (Cut.upTo.keeps t ·.1) := by
  rw [right, index, bisect_eq_countP (List.pairwise_map.mpr (h.keeps_upTo_first t)),
    List.countP_map]
  rfl

/-- The position of a moment is the number of points before it. -/
theorem IsIncreasing.left_eq (h : s.IsIncreasing) (t : Option Instant) :
    s.left t = s.points.countP (Cut.before.keeps t ·.1) := by
  rw [left, index, bisect_eq_countP (List.pairwise_map.mpr (h.keeps_before_first t)),
    List.countP_map]
  rfl

/-! ## Points that are kept -/

theorem points_upTo_eq (s : Series α) (t : Option Instant) :
    (s.upTo t).points = s.points.takeWhile (Cut.upTo.keeps t ·.1) := by
  cases t with
  | none => exact (List.takeWhile_eq_self_iff.mpr fun _ _ ↦ rfl).symm
  | some t => rfl

theorem points_before_eq (s : Series α) (t : Option Instant) :
    (s.before t).points = s.points.takeWhile (Cut.before.keeps t ·.1) := by
  cases t with
  | none => exact (List.takeWhile_eq_self_iff.mpr fun _ _ ↦ rfl).symm
  | some t => rfl

theorem points_fromOn_eq (s : Series α) (t : Option Instant) :
    (s.fromOn t).points = s.points.dropWhile (Cut.before.keeps t ·.1) := by
  cases t with
  | none => exact (List.dropWhile_eq_nil_iff.mpr fun _ _ ↦ rfl).symm
  | some t => rfl

theorem points_after_eq (s : Series α) (t : Option Instant) :
    (s.after t).points = s.points.dropWhile (Cut.upTo.keeps t ·.1) := by
  cases t with
  | none => exact (List.dropWhile_eq_nil_iff.mpr fun _ _ ↦ rfl).symm
  | some t => rfl

/-- Cutting twice is cutting at the earlier moment. -/
theorem upTo_upTo_earlier (s : Series α) (t t' : Option Instant) :
    (s.upTo t).upTo t' = s.upTo (Instant.earlier t t') := by
  refine eq_of_points ?_
  rw [points_upTo_eq, points_upTo_eq, points_upTo_eq, List.takeWhile_takeWhile]
  refine congrArg (List.takeWhile · s.points) (funext fun p ↦ ?_)
  rw [Bool.eq_iff_iff, decide_eq_true_iff, Cut.keeps_earlier, and_comm]

/-- Each cut has the points that it has to keep, and is found by a search. -/
theorem IsIncreasing.cut_points {s : Series Float} (h : s.IsIncreasing) (t : Option Instant)
    (kind : Cut) :
    (operations.cut kind s t).points = s.points.filter (kind.keeps t ·.1) ∧
      (operations.cut kind s t).columns = s.searched t kind := by
  have hright := h.keeps_upTo_first t
  have hleft := h.keeps_before_first t
  cases kind with
  | upTo =>
    refine ⟨(s.points_upTo_eq t).trans (takeWhile_of_first hright), ?_⟩
    rw [searched, h.right_eq, slice_zero, ← takeWhile_eq_take hright, ← points_upTo_eq]
    rfl
  | before =>
    refine ⟨(s.points_before_eq t).trans (takeWhile_of_first hleft), ?_⟩
    rw [searched, h.left_eq, slice_zero, ← takeWhile_eq_take hleft, ← points_before_eq]
    rfl
  | fromOn =>
    simp only [Cut.keeps_fromOn]
    refine ⟨(s.points_fromOn_eq t).trans (dropWhile_of_first hleft), ?_⟩
    rw [searched, h.left_eq, slice_length, ← dropWhile_eq_drop hleft, ← points_fromOn_eq]
    rfl
  | after =>
    simp only [Cut.keeps_after]
    refine ⟨(s.points_after_eq t).trans (dropWhile_of_first hright), ?_⟩
    rw [searched, h.right_eq, slice_length, ← dropWhile_eq_drop hright, ← points_after_eq]
    rfl

theorem upTo_append_after (s : Series α) (t : Option Instant) :
    (s.upTo t).points ++ (s.after t).points = s.points := by
  rw [points_upTo_eq, points_after_eq, List.takeWhile_append_dropWhile]

theorem before_append_fromOn (s : Series α) (t : Option Instant) :
    (s.before t).points ++ (s.fromOn t).points = s.points := by
  rw [points_before_eq, points_fromOn_eq, List.takeWhile_append_dropWhile]

/-! ## Look-up -/

/-- A look-up at a moment needs to see the first point from this moment on, and no other. -/
theorem IsIncreasing.get?_eq (h : s.IsIncreasing) (t : Instant) : s.get? (some t) =
    (s.fromOn (some t)).points.head?.bind fun (d, x) ↦ if d = t then some x else none := by
  have hfromOn : s.get? (some t) = (s.fromOn (some t)).points.lookup t :=
    (lookup_dropWhile (Instant.le_refl t)).symm
  rw [hfromOn]
  cases hpoints : (s.fromOn (some t)).points with
  | nil => rfl
  | cons p rest =>
    obtain ⟨d, x⟩ := p
    have htd : t ≤ d := le_of_dropWhile hpoints
    have hrest := isIncreasing_iff.mp (h.fromOn (some t))
    rw [hpoints] at hrest
    by_cases hd : d = t
    · subst hd
      simp
    · have hlt : t < d := Instant.lt_of_le_of_ne htd (Ne.symm hd)
      have hafter : ∀ q ∈ (d, x) :: rest, t < q.1 := by
        intro q hq
        rcases List.mem_cons.mp hq with rfl | hq
        · exact hlt
        · exact Instant.lt_trans hlt ((List.pairwise_cons.mp hrest).1 q hq)
      rw [lookup_eq_none_of_lt hafter]
      simp [hd]

/-- The position that the search yields is the one of the first point from the moment on. -/
theorem IsIncreasing.getElem?_left (h : s.IsIncreasing) (t : Option Instant) :
    s.points[s.left t]? = (s.fromOn t).points.head? := by
  rw [points_fromOn_eq, dropWhile_eq_drop (h.keeps_before_first t), List.head?_drop, h.left_eq]

/-- The value at a moment is found by a search as it is by a scan. -/
theorem IsIncreasing.get?_eq_searched? (h : s.IsIncreasing) (t : Option Instant) :
    s.get? t = s.searched? t := by
  rw [searched?, index, values, List.getElem?_map, List.getElem?_map, h.getElem?_left]
  cases t with
  | none => rfl
  | some t =>
    rw [h.get?_eq]
    cases (s.fromOn (some t)).points.head? with
    | none => rfl
    | some p => simp

/-- There is a value at a moment if there is a point of it. -/
theorem IsIncreasing.get?_iff (h : s.IsIncreasing) {t : Option Instant} {x : α} :
    s.get? t = some x ↔ ∃ d, t = some d ∧ (d, x) ∈ s.points := by
  cases t with
  | none => simp [get?]
  | some t => simp [get?_eq_some h]

/-- The cut up to a moment has the point at the moment more than the cut before it. -/
theorem IsIncreasing.points_upTo_of_get? (h : s.IsIncreasing) (t : Instant) :
    (s.upTo (some t)).points =
      (s.before (some t)).points ++ ((s.get? (some t)).map (t, ·)).toList := by
  have hbefore : ∀ p ∈ (s.before (some t)).points, decide (p.1 ≤ t) = true := by
    intro p hp
    have hlt := List.mem_takeWhile_imp (p := fun q : Instant × α ↦ decide (q.1 < t)) hp
    exact decide_eq_true (Instant.le_of_lt (of_decide_eq_true hlt))
  rw [h.points_upTo, ← s.before_append_fromOn (some t), List.filter_append,
    List.filter_eq_self.mpr hbefore, h.get?_eq]
  congr 1
  cases hpoints : (s.fromOn (some t)).points with
  | nil => rfl
  | cons p rest =>
    obtain ⟨d, x⟩ := p
    have hinc := isIncreasing_iff.mp (h.fromOn (some t))
    rw [hpoints] at hinc
    have hnot {q : Instant × α} (hq : t < q.1) : ¬ decide (q.1 ≤ t) = true :=
      mt of_decide_eq_true (Instant.not_le.mpr hq)
    have htd : t ≤ d := le_of_dropWhile hpoints
    have hrest : rest.filter (fun q ↦ decide (q.1 ≤ t)) = [] :=
      List.filter_eq_nil_iff.mpr fun q hq ↦
        hnot (Instant.lt_of_le_of_lt htd ((List.pairwise_cons.mp hinc).1 q hq))
    by_cases hd : d = t
    · subst hd
      simp [hrest, Instant.le_refl]
    · have hlt : t < d := Instant.lt_of_le_of_ne htd (Ne.symm hd)
      simp [hrest, hd, Instant.not_le.mpr hlt]

/-- There is none exactly if nothing lies between the points up to the moment and those before
it. -/
theorem IsIncreasing.get?_eq_none_iff (h : s.IsIncreasing) (t : Option Instant) :
    s.get? t = none ↔ s.upTo t = s.before t := by
  cases t with
  | none => exact iff_of_true rfl rfl
  | some t =>
    have hpoints := h.points_upTo_of_get? t
    constructor
    · intro hnone
      rw [hnone] at hpoints
      exact eq_of_points (hpoints.trans (List.append_nil _))
    · intro hsame
      rw [hsame, List.self_eq_append_right, Option.toList_eq_nil_iff, Option.map_eq_none_iff]
        at hpoints
      exact hpoints

/-- The value at a moment is the latest one up to it. -/
theorem IsIncreasing.last_upTo (h : s.IsIncreasing) {t : Option Instant} {x : α}
    (hx : s.get? t = some x) : (s.upTo t).last = .ok x := by
  obtain ⟨d, rfl, -⟩ := h.get?_iff.mp hx
  have hpoints := h.points_upTo_of_get? d
  rw [hx] at hpoints
  rw [last, lastPoint?, hpoints]
  simp

/-- Whatever the moment is, each cut keeps exactly the points that it has to keep, as a search finds
them; two cuts that complement each other make up the series; a second cut matters only if it is
earlier; and a look-up finds the value of the point at the moment, if there is one. -/
theorem cut_and_lookup {s : Series Float} (h : s.IsIncreasing) (t : Option Instant) :
    (∀ kind, (operations.cut kind s t).points = s.points.filter (kind.keeps t ·.1) ∧
      (operations.cut kind s t).columns = s.searched t kind) ∧
    (s.upTo t).points ++ (s.after t).points = s.points ∧
    (s.before t).points ++ (s.fromOn t).points = s.points ∧
    (∀ t', (s.upTo t).upTo t' = s.upTo (Instant.earlier t t')) ∧
    s.get? t = s.searched? t ∧
    (∀ x, s.get? t = some x ↔ ∃ d, t = some d ∧ (d, x) ∈ s.points) ∧
    (s.get? t = none ↔ s.upTo t = s.before t) ∧
    ∀ x, s.get? t = some x → (s.upTo t).last = .ok x :=
  ⟨h.cut_points t, s.upTo_append_after t, s.before_append_fromOn t, s.upTo_upTo_earlier t,
    h.get?_eq_searched? t, fun _ ↦ h.get?_iff, h.get?_eq_none_iff t, fun _ ↦ h.last_upTo⟩

/-- Three points, two of them at moments next to each other. -/
def nearPoints : Series Float := ⟨[(⟨2⟩, 1.0), (⟨3⟩, 4.0), (⟨5⟩, 2.0)]⟩

/-- Cuts and look-ups at a point, between two points, and at the missing moment. -/
theorem nearPoints_cut_and_lookup :
    (operations.cut .after nearPoints (some ⟨3⟩)).points = [(⟨5⟩, 2.0)] ∧
      nearPoints.searched? (some ⟨3⟩) = some 4.0 ∧
      (nearPoints.upTo (some ⟨3⟩)).last = .ok 4.0 ∧
      nearPoints.upTo (some ⟨4⟩) = nearPoints.before (some ⟨4⟩) ∧
      (operations.cut .before nearPoints none).points = nearPoints.points := by
  have h : nearPoints.IsIncreasing := increasing_iff.mp rfl
  obtain ⟨hcut, -, -, -, hsearched, -, -, hlast⟩ := cut_and_lookup h (some ⟨3⟩)
  obtain ⟨-, -, -, -, -, -, hnone, -⟩ := cut_and_lookup h (some ⟨4⟩)
  obtain ⟨hmissing, -⟩ := cut_and_lookup h none
  exact ⟨(hcut .after).1, hsearched.symm, hlast _ rfl, hnone.mp rfl, (hmissing .before).1⟩

end Series

end ScorePortfolio

import ScorePortfolio.Series.Cut
import Mathlib.Data.List.Basic
import Mathlib.Data.List.Pairwise
import Mathlib.Data.List.TakeWhile

/-!
# Increasing series

In a series whose moments increase, a moment has one value at most, and the points up to a moment
are exactly those that are not after it.  Every series that a constructor yields is increasing.
-/

namespace ScorePortfolio

namespace Instant

theorem lt_of_le_of_lt {r s t : Instant} (h : r ≤ s) (h' : s < t) : r < t := Int.lt_of_le_of_lt h h'

theorem lt_of_lt_of_le {r s t : Instant} (h : r < s) (h' : s ≤ t) : r < t := Int.lt_of_lt_of_le h h'

theorem le_of_lt {s t : Instant} (h : s < t) : s ≤ t := Int.le_of_lt h

theorem le_trans {r s t : Instant} (h : r ≤ s) (h' : s ≤ t) : r ≤ t := Int.le_trans h h'

theorem lt_of_le_of_ne {s t : Instant} (h : s ≤ t) (hne : s ≠ t) : s < t :=
  Int.lt_iff_le_and_ne.mpr ⟨h, fun heq ↦ hne (eq_iff.mpr heq)⟩

theorem ne_of_lt {s t : Instant} (h : s < t) : s ≠ t := fun heq ↦ lt_irrefl t (heq ▸ h)

theorem lt_asymm {s t : Instant} (h : s < t) : ¬ t < s := Int.lt_asymm h

theorem lt_trichotomy (s t : Instant) : s < t ∨ s = t ∨ t < s := by
  rw [eq_iff]
  exact Int.lt_trichotomy _ _

end Instant

/-! ## Initial parts -/

section Initial

variable {β : Type} {p : β → Bool} {l : List β}

/-- If the items that pass a test come first, then they are the ones up to the first that fails. -/
theorem takeWhile_of_first (h : l.Pairwise fun a b ↦ p b = true → p a = true) :
    l.takeWhile p = l.filter p := by
  induction l with
  | nil => rfl
  | cons a l ih =>
    obtain ⟨ha, hl⟩ := List.pairwise_cons.mp h
    by_cases hp : p a = true
    · rw [List.takeWhile_cons_of_pos hp, List.filter_cons_of_pos hp, ih hl]
    · have hnone : l.filter p = [] := List.filter_eq_nil_iff.mpr fun b hb hpb ↦ hp (ha b hb hpb)
      rw [List.takeWhile_cons_of_neg hp, List.filter_cons_of_neg hp, hnone]

/-- If the items that pass a test all come first, dropping them from the front drops all of them. -/
theorem dropWhile_of_first (h : l.Pairwise fun a b ↦ p b = true → p a = true) :
    l.dropWhile p = l.filter fun a ↦ !p a := by
  induction l with
  | nil => rfl
  | cons a l ih =>
    obtain ⟨ha, hl⟩ := List.pairwise_cons.mp h
    by_cases hp : p a = true
    · rw [List.dropWhile_cons_of_pos hp, List.filter_cons_of_neg (by simpa using hp), ih hl]
    · have hall : ∀ b ∈ a :: l, (!p b) = true := by
        intro b hb
        rcases List.mem_cons.mp hb with rfl | hb
        · simpa using hp
        · simpa using mt (ha b hb) hp
      rw [List.dropWhile_cons_of_neg hp, List.filter_eq_self.mpr hall]

/-- They are as many as pass the test. -/
theorem takeWhile_eq_take {p : β → Bool} {l : List β}
    (h : l.Pairwise fun a b ↦ p b = true → p a = true) : l.takeWhile p = l.take (l.countP p) := by
  induction l with
  | nil => rfl
  | cons a l ih =>
    obtain ⟨ha, hl⟩ := List.pairwise_cons.mp h
    by_cases hp : p a = true
    · rw [List.takeWhile_cons_of_pos hp, List.countP_cons_of_pos hp, List.take_succ_cons, ih hl]
    · have hnone : l.countP p = 0 := List.countP_eq_zero.mpr fun b hb hpb ↦ hp (ha b hb hpb)
      rw [List.takeWhile_cons_of_neg hp, List.countP_cons_of_neg hp, hnone, List.take_zero]

/-- Their number is where the others begin. -/
theorem dropWhile_eq_drop {p : β → Bool} {l : List β}
    (h : l.Pairwise fun a b ↦ p b = true → p a = true) : l.dropWhile p = l.drop (l.countP p) := by
  have hall : l.takeWhile p ++ l.dropWhile p = l.takeWhile p ++ l.drop (l.countP p) := by
    rw [List.takeWhile_append_dropWhile, takeWhile_eq_take h, List.take_append_drop]
  exact List.append_cancel_left hall

end Initial

/-! ## Points in order -/

section Points

variable {β : Type} {ps : List (Instant × β)}

/-- Among increasing moments, a moment is found with the value that stands beside it. -/
theorem lookup_eq_some (h : ps.Pairwise (·.1 < ·.1)) {t : Instant} {x : β} :
    ps.lookup t = some x ↔ (t, x) ∈ ps := by
  induction ps with
  | nil => simp
  | cons q ps ih =>
    obtain ⟨u, y⟩ := q
    obtain ⟨hlt, hps⟩ := List.pairwise_cons.mp h
    by_cases htu : t = u
    · subst htu
      have hout : (t, x) ∉ ps := fun hx ↦ Instant.lt_irrefl t (hlt _ hx)
      simp [hout, eq_comm]
    · rw [List.lookup_cons, beq_false_of_ne htu, ih hps]
      simp [htu]

/-- Up to a moment, the points are those that are not after it. -/
theorem takeWhile_eq_filter (h : ps.Pairwise (·.1 < ·.1)) (t : Instant) :
    ps.takeWhile (·.1 ≤ t) = ps.filter (·.1 ≤ t) := by
  refine takeWhile_of_first (h.imp fun {p q} hpq hq ↦ ?_)
  exact decide_eq_true (Instant.le_of_lt (Instant.lt_of_lt_of_le hpq (of_decide_eq_true hq)))

end Points

theorem map_fst_zip_sublist {β γ : Type} (xs : List β) (ys : List γ) :
    ((xs.zip ys).map (·.1)).Sublist xs := by
  induction xs generalizing ys with
  | nil => simp
  | cons x xs ih =>
    cases ys with
    | nil => simp
    | cons y ys => simpa using ih ys

namespace Series

variable {α β : Type} {s : Series α}

theorem isIncreasing_iff : s.IsIncreasing ↔ s.points.Pairwise (·.1 < ·.1) := List.pairwise_map

/-- Of points in order, those before a moment come first. -/
theorem IsIncreasing.before_first (h : s.IsIncreasing) (t : Instant) :
    s.points.Pairwise fun p q ↦ decide (q.1 < t) = true → decide (p.1 < t) = true := by
  refine (isIncreasing_iff.mp h).imp ?_
  intro p q hpq hq
  exact decide_eq_true (Instant.lt_trans hpq (of_decide_eq_true hq))

/-- The points up to a moment come before the others. -/
theorem IsIncreasing.upTo_first (h : s.IsIncreasing) (t : Instant) :
    s.points.Pairwise fun p q ↦ decide (q.1 ≤ t) = true → decide (p.1 ≤ t) = true := by
  refine (isIncreasing_iff.mp h).imp ?_
  intro p q hpq hq
  exact decide_eq_true (Instant.le_of_lt (Instant.lt_of_lt_of_le hpq (of_decide_eq_true hq)))

theorem IsIncreasing.map (h : s.IsIncreasing) (f : α → β) : (s.map f).IsIncreasing := by
  rwa [IsIncreasing, index_map]

/-- Points up to a moment increase like all points. -/
theorem IsIncreasing.upTo (h : s.IsIncreasing) (t : Option Instant) : (s.upTo t).IsIncreasing := by
  cases t with
  | none => exact h
  | some t => exact h.sublist ((List.takeWhile_sublist _).map _)

/-! ## Constructors -/

/-- A series made of columns has passed the check of its index. -/
theorem isIncreasing_of_ofColumns {index : List (Option Instant)} {values : List α}
    (h : ofColumns index values = .ok s) : s.IsIncreasing := by
  rw [ofColumns] at h
  split at h
  · cases h
  split at h
  · cases h
  next instants _ =>
  split at h
  · next hinc =>
    obtain rfl := Except.ok.inj h
    exact (increasing_iff.mp hinc).sublist (map_fst_zip_sublist instants values)
  · cases h

end Series

end ScorePortfolio

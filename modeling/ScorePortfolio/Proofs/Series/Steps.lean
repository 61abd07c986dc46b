import ScorePortfolio.Series.Transform
import Mathlib.Data.List.Nodup

/-!
# Consecutive items

The steps of a list go from each item to the next.  They are kept by maps, by initial parts and by
parts without gaps; if no item repeats, an item is reached from one other at most.
-/

namespace ScorePortfolio

variable {β γ : Type} {l l' : List β} {x y z : β}

@[simp] theorem steps_cons_cons (x y : β) (l : List β) :
    steps (x :: y :: l) = (x, y) :: steps (y :: l) := rfl

theorem mem_steps : (x, y) ∈ steps l ↔ ∃ i : ℕ, l[i]? = some x ∧ l[i + 1]? = some y := by
  simp only [steps, List.mem_iff_getElem?, List.getElem?_zip_eq_some, List.getElem?_tail]

/-- A step leads from an item to an item. -/
theorem of_mem_steps {step : β × β} (h : step ∈ steps l) : step.1 ∈ l ∧ step.2 ∈ l :=
  (List.of_mem_zip h).imp_right List.mem_of_mem_tail

theorem map_snd_steps (l : List β) : (steps l).map (·.2) = l.tail :=
  List.map_snd_zip (by simp)

theorem steps_map (f : β → γ) (l : List β) :
    steps (l.map f) = (steps l).map fun (x, y) ↦ (f x, f y) := by
  rw [steps, steps, ← List.map_tail, List.zip_map]
  rfl

/-- The steps of the first items are the first steps. -/
theorem steps_take (l : List β) (k : ℕ) : steps (l.take (k + 1)) = (steps l).take k := by
  induction k generalizing l with
  | zero => cases l <;> rfl
  | succ k ih =>
    match l with
    | [] => rfl
    | [x] => rfl
    | x :: y :: l =>
      have htake : steps (y :: l.take k) = (steps (y :: l)).take k := ih (y :: l)
      rw [steps_cons_cons, List.take_succ_cons, List.take_succ_cons, List.take_succ_cons,
        steps_cons_cons, htake]

/-- The steps to items of an initial part are the steps within it. -/
theorem steps_filter {p : β → Bool} (h : l.Pairwise fun x y ↦ p y = true → p x = true) :
    steps (l.filter p) = (steps l).filter (p ·.2) := by
  induction l with
  | nil => rfl
  | cons x l ih =>
    obtain ⟨hx, hl⟩ := List.pairwise_cons.mp h
    cases l with
    | nil => by_cases hpx : p x = true <;> simp [hpx, steps]
    | cons y l =>
      by_cases hy : p y = true
      · have hpx : p x = true := hx y List.mem_cons_self hy
        have htail : (y :: l).filter p = y :: l.filter p := List.filter_cons_of_pos hy
        calc steps ((x :: y :: l).filter p)
            _ = (x, y) :: steps ((y :: l).filter p) := by
              rw [List.filter_cons_of_pos hpx, htail, steps_cons_cons]
            _ = (steps (x :: y :: l)).filter (p ·.2) := by
              rw [ih hl]
              simp [hy]
      · have hnone : (y :: l).filter p = [] := by
          refine List.filter_eq_nil_iff.mpr fun z hz hpz ↦ hy ?_
          rcases List.mem_cons.mp hz with rfl | hz
          · exact hpz
          · exact (List.pairwise_cons.mp hl).1 z hz hpz
        have hsteps : (steps (y :: l)).filter (p ·.2) = [] := by
          rw [← ih hl, hnone]
          rfl
        simp only [steps_cons_cons, List.filter_cons (x := (x, y)), hy, hsteps]
        by_cases hpx : p x = true
        · rw [List.filter_cons_of_pos hpx, hnone]
          rfl
        · rw [List.filter_cons_of_neg hpx, hnone]
          rfl

/-- The steps of a part are steps of the whole. -/
theorem mem_steps_mono (h : l <:+: l') (hstep : (x, y) ∈ steps l) : (x, y) ∈ steps l' := by
  obtain ⟨before, after, rfl⟩ := h
  obtain ⟨i, hx, hy⟩ := mem_steps.mp hstep
  have hat {j : ℕ} {z : β} (hz : l[j]? = some z) :
      (before ++ l ++ after)[before.length + j]? = some z := by
    rw [List.append_assoc, List.getElem?_append_right (Nat.le_add_right _ _),
      Nat.add_sub_cancel_left, List.getElem?_append_left (List.getElem?_eq_some_iff.mp hz).1, hz]
  exact mem_steps.mpr ⟨before.length + i, hat hx, hat hy⟩

/-- If no item repeats, only one is followed by a given one. -/
theorem eq_of_mem_steps (h : l.Nodup) (hx : (x, z) ∈ steps l) (hy : (y, z) ∈ steps l) : x = y := by
  obtain ⟨i, hx, hz⟩ := mem_steps.mp hx
  obtain ⟨j, hy, hz'⟩ := mem_steps.mp hy
  obtain ⟨hi, hz⟩ := List.getElem?_eq_some_iff.mp hz
  obtain ⟨hj, hz'⟩ := List.getElem?_eq_some_iff.mp hz'
  obtain rfl : i = j := Nat.succ_inj.mp (h.getElem_inj_iff.mp (hz.trans hz'.symm))
  exact Option.some.inj (hx.symm.trans hy)

/-- In a list in order a step leads from an item to the next one: no item lies between. -/
theorem mem_steps_iff {r : β → β → Prop} (h : l.Pairwise r) (hasymm : ∀ a b, r a b → ¬ r b a) :
    (x, y) ∈ steps l ↔ x ∈ l ∧ y ∈ l ∧ r x y ∧ ∀ z ∈ l, r x z → ¬ r z y := by
  have hlt {i j : ℕ} (hi : i < l.length) (hj : j < l.length) (hr : r l[i] l[j]) : i < j := by
    rcases Nat.lt_trichotomy i j with hij | rfl | hji
    · exact hij
    · exact absurd hr (hasymm _ _ hr)
    · exact absurd (List.pairwise_iff_getElem.mp h j i hj hi hji) (hasymm _ _ hr)
  rw [mem_steps]
  constructor
  · rintro ⟨i, hx, hy⟩
    obtain ⟨hi, rfl⟩ := List.getElem?_eq_some_iff.mp hx
    obtain ⟨hi', rfl⟩ := List.getElem?_eq_some_iff.mp hy
    refine ⟨List.getElem_mem hi, List.getElem_mem hi',
      List.pairwise_iff_getElem.mp h i (i + 1) hi hi' (Nat.lt_succ_self i), fun z hz hxz hzy ↦ ?_⟩
    obtain ⟨j, hj, rfl⟩ := List.getElem_of_mem hz
    exact absurd (hlt hj hi' hzy) (Nat.not_lt.mpr (hlt hi hj hxz))
  · rintro ⟨hx, hy, hxy, hbetween⟩
    obtain ⟨i, hi, rfl⟩ := List.getElem_of_mem hx
    obtain ⟨j, hj, rfl⟩ := List.getElem_of_mem hy
    have hij := hlt hi hj hxy
    rcases Nat.eq_or_lt_of_le (Nat.succ_le_of_lt hij) with rfl | hnext
    · exact ⟨i, List.getElem?_eq_getElem hi, List.getElem?_eq_getElem hj⟩
    · -- the item after `x` would lie between
      have hi' : i + 1 < l.length := Nat.lt_trans hnext hj
      exact absurd (List.pairwise_iff_getElem.mp h (i + 1) j hi' hj hnext)
        (hbetween _ (List.getElem_mem hi')
          (List.pairwise_iff_getElem.mp h i (i + 1) hi hi' (Nat.lt_succ_self i)))

end ScorePortfolio

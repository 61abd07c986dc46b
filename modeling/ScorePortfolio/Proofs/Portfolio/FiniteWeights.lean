import ScorePortfolio.Proofs.Number.Special
import ScorePortfolio.Proofs.Portfolio.Allocation

/-!
# Weights of doubles

Over the doubles, weights are finite: the exactly rounded total of scores that are not negative is
no smaller than any of them, as rounding keeps order and each score is a double already.
-/

namespace ScorePortfolio

namespace Binary

/-- A total of finite terms is their exact sum, rounded once. -/
theorem totalFrom_eq_ok {xs : List Float} (hxs : ∀ x ∈ xs, x.isFinite = true) {n : ℤ}
    (hn : overflows n = false) {t : Float} (h : totalFrom n [] xs = .ok t) :
    t = ofUnits (n + (xs.map units).sum) ∧ overflows (n + (xs.map units).sum) = false := by
  induction xs generalizing n with
  | nil =>
    obtain rfl := Except.ok.inj h
    simp [hn]
  | cons x xs ih =>
    rw [List.forall_mem_cons] at hxs
    rw [totalFrom, nonFinite?_eq_none.mpr hxs.1] at h
    simp only at h
    split at h
    · cases h
    · next hnext =>
      rw [List.map_cons, List.sum_cons, ← add_assoc]
      exact ih hxs.2 (Bool.eq_false_iff.mpr hnext) h

/-- The total of terms that are not negative is finite, and no smaller than any of them. -/
theorem le_total {xs : List Float} (hxs : ∀ x ∈ xs, x.isFinite = true ∧ 0 ≤ units x) {t : Float}
    (h : total xs = .ok t) :
    t.isFinite = true ∧ ∀ x ∈ xs, magnitude x ≤ magnitude t := by
  obtain ⟨rfl, hrange⟩ := totalFrom_eq_ok (fun x hx ↦ (hxs x hx).1) (by decide) h
  rw [zero_add] at *
  have hbits : nearestBits (xs.map units).sum.natAbs 1 < infinityBits := by
    simpa [overflows] using hrange
  refine ⟨?_, fun x hx ↦ ?_⟩
  · rw [ofUnits, isFinite_ofBits]
    exact hbits
  · have hle : units x ≤ (xs.map units).sum := by
      refine List.single_le_sum (fun z hz ↦ ?_) _ (List.mem_map_of_mem hx)
      obtain ⟨y, hy, rfl⟩ := List.mem_map.mp hz
      exact (hxs y hy).2
    have habs : magnitude x ≤ (xs.map units).sum.natAbs := by
      have habs : (units x).natAbs = magnitude x := natAbs_signedUnits _ _
      have hpos := (hxs x hx).2
      omega
    have hround := nearestBits_mono one_pos one_pos (Nat.mul_le_mul_right 1 habs)
    rw [magnitude, nearestBits_unitsOfBits] at hround
    rw [magnitude, magnitude, unitsOfBits_le_iff, ofUnits, magnitudeBits_ofBits]
    exact le_min hround (isFinite_iff.mp (hxs x hx).1).le

end Binary

theorem isFinite_zero : (Quantity.zero : Float).isFinite = true := by decide

theorem units_zero : Binary.units (Quantity.zero : Float) = 0 := by decide

theorem zero_lt_iff {x : Float} (h : x.isFinite = true) :
    Quantity.lt Quantity.zero x = true ↔ 0 < Binary.units x := by
  rw [← units_zero, ← Binary.lt_iff isFinite_zero h]
  exact decide_eq_true_iff

/-- A finite score made long-only is finite and not negative. -/
theorem longOnly_spec {x : Float} (h : x.isFinite = true) :
    (longOnly x).isFinite = true ∧ 0 ≤ Binary.units (longOnly x) := by
  rw [longOnly]
  split
  · next hpos => exact ⟨h, ((zero_lt_iff h).mp hpos).le⟩
  · exact ⟨isFinite_zero, units_zero.ge⟩

/-- Finite scores count as finite terms that are not negative. -/
theorem longOnly_terms {scores : List (Asset × Float)}
    (h : ∀ e ∈ scores, Quantity.nonFinite? e.2 = none) :
    ∀ x ∈ scores.map fun e ↦ longOnly e.2, x.isFinite = true ∧ 0 ≤ Binary.units x := by
  intro x hx
  obtain ⟨e, he, rfl⟩ := List.mem_map.mp hx
  exact longOnly_spec (Binary.nonFinite?_eq_none.mp (h e he))

/-- Weights are finite. -/
theorem isFinite_of_normalize {scores weights : List (Asset × Float)}
    (h : normalize scores = .ok weights) : ∀ e ∈ weights, e.2.isFinite = true := by
  obtain ⟨hscores, sum, hsum, hne, rfl⟩ := normalize_eq_ok.mp h
  have hterms := longOnly_terms hscores
  obtain ⟨hfinite, hle⟩ := Binary.le_total hterms hsum
  intro e he
  obtain ⟨score, hmem, rfl⟩ := List.mem_map.mp he
  have hmem := List.mem_map_of_mem (f := fun e ↦ longOnly e.2) hmem
  exact Binary.isFinite_div (hterms _ hmem).1 hfinite (Binary.magnitudeBits_pos hne) (hle _ hmem)

theorem normalize_nil : normalize ([] : List (Asset × Float)) = .error .degenerate := by
  decide

theorem ne_nil_of_normalize {scores weights : List (Asset × Float)}
    (h : normalize scores = .ok weights) : weights ≠ [] := by
  rintro rfl
  have hkeys := assets_of_normalize h
  rw [List.map_nil, eq_comm, List.map_eq_nil_iff] at hkeys
  subst hkeys
  cases normalize_nil.symm.trans h

namespace Graph

variable {g : Graph} {c : Client Float} {settings : Settings} {t : Option Instant}
  {a : Allocation Float} (h : g.allocate c settings t = .ok a)

include h

/-- The weights of an allocation are finite. -/
theorem isFinite_of_allocate : ∀ e ∈ a.weights, e.2.isFinite = true := by
  obtain ⟨_, weights, hweights, hperm⟩ := exists_weights h
  intro e he
  exact isFinite_of_normalize hweights e (hperm.mem_iff.mp he)

/-- An allocation of no assets would be degenerate. -/
theorem weights_ne_nil : a.weights ≠ [] := by
  obtain ⟨_, weights, hweights, hperm⟩ := exists_weights h
  intro hnil
  rw [hnil] at hperm
  exact ne_nil_of_normalize hweights hperm.nil_eq.symm

end Graph

end ScorePortfolio

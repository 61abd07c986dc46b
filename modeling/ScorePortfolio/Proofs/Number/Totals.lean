import ScorePortfolio.Proofs.Number.Special
import Mathlib.Algebra.BigOperators.Group.List.Basic
import Mathlib.Algebra.Order.BigOperators.Group.List
import Mathlib.Algebra.Order.Field.Rat
import Mathlib.Tactic.FieldSimp
import Mathlib.Tactic.Positivity

/-!
# Totals of doubles that are not negative

A total is the exact sum, rounded once.  While no term is negative the running sum only grows, so it
leaves the range of the doubles at some term exactly if it does at the end: if the exact sum lies
half a step beyond the largest double, or further.
-/

namespace ScorePortfolio.Binary

/-! ## Exact values -/

section Exact

variable {x y : Float}

theorem unitsInOne_pos : 0 < unitsInOne := by decide

theorem unitsInOne_cast_pos : (0 : ℚ) < unitsInOne := Nat.cast_pos.mpr unitsInOne_pos

theorem toRat_eq (x : Float) : toRat x = units x / unitsInOne := by
  rw [toRat, Rat.mkRat_eq_div]

theorem toRat_le_toRat : toRat x ≤ toRat y ↔ units x ≤ units y := by
  rw [toRat_eq, toRat_eq, div_le_div_iff_of_pos_right unitsInOne_cast_pos, Int.cast_le]

theorem toRat_nonneg : 0 ≤ toRat x ↔ 0 ≤ units x := by
  rw [toRat_eq, le_div_iff₀ unitsInOne_cast_pos, zero_mul, Int.cast_nonneg_iff]

theorem toRat_pos : 0 < toRat x ↔ 0 < units x := by
  rw [toRat_eq, lt_div_iff₀ unitsInOne_cast_pos, zero_mul, Int.cast_pos]

theorem toRat_nonpos : toRat x ≤ 0 ↔ units x ≤ 0 := by
  rw [← not_lt, toRat_pos, not_lt]

theorem toRat_le_one : toRat x ≤ 1 ↔ units x ≤ unitsInOne := by
  rw [toRat_eq, div_le_one unitsInOne_cast_pos, ← Int.cast_natCast, Int.cast_le]

end Exact

/-! ## Leaving the range -/

/-- The smallest number that rounds beyond the largest double, half a step above it. -/
def beyondRange : ℚ := 2 ^ 1024 - 2 ^ 970

/-- The same in units. -/
def beyondUnits : ℕ := (1 <<< 54 - 1) <<< 2044

theorem beyondRange_mul : beyondRange * unitsInOne = beyondUnits := by
  have hunits : beyondUnits + 2 ^ 970 * unitsInOne = 2 ^ 1024 * unitsInOne := by decide +kernel
  have hcast := congrArg (Nat.cast (R := ℚ)) hunits
  rw [Nat.cast_add, Nat.cast_mul, Nat.cast_mul, Nat.cast_pow, Nat.cast_pow, Nat.cast_ofNat] at hcast
  rw [beyondRange, sub_mul]
  exact sub_eq_of_eq_add hcast.symm

-- a shift is evaluated place by place, and this is one by 2044 of them
set_option maxRecDepth 2500 in
theorem nearestBits_beyondUnits : nearestBits beyondUnits 1 = infinityBits := by decide

set_option maxRecDepth 2500 in
theorem nearestBits_before : nearestBits (beyondUnits - 1) 1 < infinityBits := by decide

/-- A sum of units leaves the range exactly at the value from which on doubles are rounded to
infinity. -/
theorem overflows_iff {n : ℤ} : overflows n = true ↔ beyondUnits ≤ n.natAbs := by
  rw [overflows, decide_eq_true_iff]
  constructor
  · intro h
    by_contra hlt
    have hbefore : nearestBits n.natAbs 1 ≤ nearestBits (beyondUnits - 1) 1 :=
      nearestBits_mono one_pos one_pos (Nat.mul_le_mul_right 1 (by omega))
    exact absurd (h.trans hbefore) nearestBits_before.not_ge
  · intro h
    rw [← nearestBits_beyondUnits]
    exact nearestBits_mono one_pos one_pos (Nat.mul_le_mul_right 1 h)

theorem overflows_mono {n m : ℤ} (hn : 0 ≤ n) (hle : n ≤ m) (h : overflows n = true) :
    overflows m = true := by
  rw [overflows_iff] at h ⊢
  exact h.trans (by omega)

theorem overflows_zero : overflows 0 = false := by decide

/-! ## Totals -/

variable {xs : List Float} {n : ℤ}

/-- The running sum of terms that are not negative leaves the range if the whole sum does. -/
theorem totalFrom_eq (hxs : ∀ x ∈ xs, x.isFinite = true ∧ 0 ≤ units x) (hn : 0 ≤ n)
    (hrange : overflows n = false) : totalFrom n [] xs =
      if overflows (n + (xs.map units).sum) then .error .overflow
      else .ok (ofUnits (n + (xs.map units).sum)) := by
  induction xs generalizing n with
  | nil =>
    rw [List.map_nil, List.sum_nil, add_zero, hrange]
    rfl
  | cons x xs ih =>
    obtain ⟨⟨hfinite, hpos⟩, hxs⟩ := List.forall_mem_cons.mp hxs
    have hnext : 0 ≤ n + units x := Int.add_nonneg hn hpos
    have hrest : 0 ≤ (xs.map units).sum := List.sum_nonneg fun z hz ↦ by
      obtain ⟨y, hy, rfl⟩ := List.mem_map.mp hz
      exact (hxs y hy).2
    rw [totalFrom, nonFinite?_eq_none.mpr hfinite, List.map_cons, List.sum_cons, ← add_assoc]
    cases hover : overflows (n + units x) with
    | true =>
      rw [overflows_mono hnext (Int.le_add_of_nonneg_right hrest) hover]
      simp only [hover, if_true]
    | false =>
      simp only [hover]
      exact ih hxs hnext hover

theorem total_eq (hxs : ∀ x ∈ xs, x.isFinite = true ∧ 0 ≤ units x) : total xs =
    if overflows (xs.map units).sum then .error .overflow
    else .ok (ofUnits (xs.map units).sum) := by
  have h := totalFrom_eq hxs le_rfl overflows_zero
  rwa [zero_add] at h

end ScorePortfolio.Binary

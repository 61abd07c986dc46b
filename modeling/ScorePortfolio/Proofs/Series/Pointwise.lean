import ScorePortfolio.Proofs.Number.Special
import ScorePortfolio.Proofs.Series.Join
import Mathlib.Data.Set.Card
import Mathlib.Order.Bounds.Defs

/-!
# Arithmetic of two series

Two series are combined value by value at the moments that both have.  A sum, a difference or a
product always succeeds, also if no moment is shared.  A quotient fails exactly if the divisor is
zero at a shared moment, wherever else it may be zero; the failure counts the shared moments at
which it is, and names the earliest of them.
-/

namespace ScorePortfolio

/-- An operation on two numbers. -/
def Arithmetic.combine {α : Type} [Quantity α] : Arithmetic → α → α → α
  | .add => (· + ·)
  | .sub => (· - ·)
  | .mul => (· * ·)
  | .div => (· / ·)

namespace Series

/-! ## Shared moments -/

section Combines

variable {α : Type} {a b s : Series α} {f : α → α → α}

/-- A series has a value at the moments that two others share and at no other, and it is what a
function makes of theirs. -/
structure Combines (f : α → α → α) (a b s : Series α) : Prop where
  isIncreasing : s.IsIncreasing
  mem_index : ∀ t, t ∈ s.index ↔ t ∈ a.index ∧ t ∈ b.index
  value : ∀ t x y, a.get? (some t) = some x → b.get? (some t) = some y →
    s.get? (some t) = some (f x y)

/-- A combined series has the points at which both have one. -/
theorem mem_zipWith (ha : a.IsIncreasing) (hb : b.IsIncreasing) {t : Instant} {z : α} :
    (t, z) ∈ (a.zipWith f b).points ↔
      ∃ x y, (t, x) ∈ a.points ∧ (t, y) ∈ b.points ∧ f x y = z := by
  simp only [zipWith, List.mem_map, Prod.exists, Prod.mk.injEq,
    mem_sharedPoints (isIncreasing_iff.mp ha) (isIncreasing_iff.mp hb)]
  constructor
  · rintro ⟨t, x, y, ⟨hx, hy⟩, rfl, hz⟩
    exact ⟨x, y, hx, hy, hz⟩
  · rintro ⟨x, y, hx, hy, hz⟩
    exact ⟨t, x, y, ⟨hx, hy⟩, rfl, hz⟩

/-- Two increasing series are combined at the moments that they share and at no other. -/
theorem zipWith_combines (ha : a.IsIncreasing) (hb : b.IsIncreasing) (f : α → α → α) :
    Combines f a b (a.zipWith f b) where
  isIncreasing := ha.zipWith hb f
  mem_index t := by
    simp only [mem_index_iff, mem_zipWith ha hb]
    constructor
    · rintro ⟨_, x, y, hx, hy, -⟩
      exact ⟨⟨x, hx⟩, y, hy⟩
    · rintro ⟨⟨x, hx⟩, y, hy⟩
      exact ⟨f x y, x, y, hx, hy, rfl⟩
  value t x y hx hy := by
    rw [get?_eq_some ha] at hx
    rw [get?_eq_some hb] at hy
    rw [get?_eq_some (ha.zipWith hb f), mem_zipWith ha hb]
    exact ⟨x, y, hx, hy, rfl⟩

/-- A series that combines two others without a shared moment is empty. -/
theorem Combines.eq_empty (h : Combines f a b s) (hdisjoint : ∀ t ∈ a.index, t ∉ b.index) :
    s = empty := by
  have hindex : s.index = [] := by
    refine List.eq_nil_iff_forall_not_mem.mpr fun t ht ↦ ?_
    obtain ⟨hta, htb⟩ := (h.mem_index t).mp ht
    exact hdisjoint t hta htb
  exact eq_of_points (List.map_eq_nil_iff.mp hindex)

end Combines

/-! ## Zeros of the divisor -/

section Zeros

variable {a b : Series Float}

/-- Both series have the moment, and the second one is zero there, of either sign. -/
def IsSharedZero (a b : Series Float) (t : Instant) : Prop :=
  t ∈ a.index ∧ ∃ y, b.get? (some t) = some y ∧ (y = 0.0 ∨ y = -0.0)

/-- The zeros that are collected are those of the second series at shared moments. -/
theorem mem_sharedZeros (ha : a.IsIncreasing) (hb : b.IsIncreasing) {t : Instant} :
    t ∈ (sharedZeros a b).map (·.1) ↔ IsSharedZero a b t := by
  simp only [sharedZeros, IsSharedZero, List.mem_map, List.mem_filter, Prod.exists,
    (mem_align ha hb).2, Binary.eq_zero_iff_zeros, get?_eq_some hb]
  constructor
  · rintro ⟨t, y, ⟨⟨ht, hy⟩, hzero⟩, rfl⟩
    exact ⟨ht, y, hy, hzero⟩
  · rintro ⟨ht, y, hy, hzero⟩
    exact ⟨t, y, ⟨⟨ht, hy⟩, hzero⟩, rfl⟩

theorem pairwise_sharedZeros (ha : a.IsIncreasing) (hb : b.IsIncreasing) :
    ((sharedZeros a b).map (·.1)).Pairwise (· < ·) :=
  (ha.align hb).2.sublist (List.filter_sublist.map _)

/-- An increasing list of the moments of a set counts them, and has the earliest in front. -/
theorem count_and_least {P : Instant → Prop} {first : Instant} {rest : List Instant}
    (hinc : (first :: rest).Pairwise (· < ·)) (hmem : ∀ t, t ∈ first :: rest ↔ P t) :
    {t | P t}.ncard = (first :: rest).length ∧ IsLeast {t | P t} first := by
  -- the list holds each moment of the set once
  have hset : {t | P t} = ((first :: rest).toFinset : Set Instant) := by
    ext t
    simp only [List.coe_toFinset, Set.mem_ofPred_eq, hmem]
  have hnodup : (first :: rest).Nodup := hinc.imp Instant.ne_of_lt
  refine ⟨?_, (hmem first).mp List.mem_cons_self, fun t ht ↦ ?_⟩
  · rw [hset, Set.ncard_coe_finset, List.toFinset_card_of_nodup hnodup]
  · rcases List.mem_cons.mp ((hmem t).mpr ht) with rfl | ht
    · exact Instant.le_refl t
    · exact Instant.le_of_lt ((List.pairwise_cons.mp hinc).1 t ht)

/-- Without a shared zero, the quotient is taken moment by moment. -/
theorem divSeries_eq_ok (ha : a.IsIncreasing) (hb : b.IsIncreasing)
    (hnone : ¬ ∃ t, IsSharedZero a b t) : divSeries a b = .ok (a.zipWith (· / ·) b) := by
  have hzeros : (sharedZeros a b).map (·.1) = [] := by
    refine List.eq_nil_iff_forall_not_mem.mpr fun t ht ↦ hnone ⟨t, ?_⟩
    exact (mem_sharedZeros ha hb).mp ht
  rw [divSeries, List.map_eq_nil_iff.mp hzeros]

/-- With shared zeros it fails, and reports their number and the earliest one. -/
theorem divSeries_eq_error (ha : a.IsIncreasing) (hb : b.IsIncreasing)
    (hsome : ∃ t, IsSharedZero a b t) : ∃ first, IsLeast {t | IsSharedZero a b t} first ∧
      divSeries a b = .error (.alignedZeros {t | IsSharedZero a b t}.ncard first) := by
  have hmem (t : Instant) : t ∈ (sharedZeros a b).map (·.1) ↔ IsSharedZero a b t :=
    mem_sharedZeros ha hb
  have hinc := pairwise_sharedZeros ha hb
  rw [divSeries]
  cases hzeros : sharedZeros a b with
  | nil =>
    obtain ⟨t, ht⟩ := hsome
    rw [← hmem, hzeros] at ht
    cases ht
  | cons zero rest =>
    rw [hzeros, List.map_cons] at hmem hinc
    obtain ⟨hcount, hleast⟩ := count_and_least hinc hmem
    refine ⟨zero.1, hleast, ?_⟩
    rw [hcount, ← List.map_cons, List.length_map]

/-- Two series are combined at the moments that they share, by any operation, unless it is a
division by one that is zero at some shared moment.  Then the failure names the number of these
moments, and the earliest.  Without a shared moment the result is empty. -/
theorem withSeries_outcome (ha : a.IsIncreasing) (hb : b.IsIncreasing) :
    (∀ op, (∃ s, a.withSeries op b = .ok s ∧ Combines op.combine a b s) ↔
      ¬ (op = .div ∧ ∃ t, IsSharedZero a b t)) ∧
    (∀ op e, a.withSeries op b = .error e ↔ op = .div ∧
      ∃ first, IsLeast {t | IsSharedZero a b t} first ∧
        e = .alignedZeros {t | IsSharedZero a b t}.ncard first) ∧
    (∀ count first, (SeriesError.alignedZeros count first).isDivision = true ∧
      (SeriesError.alignedZeros count first).message =
        s!"division by zero in {count} aligned point(s), first at {first.text}") ∧
    ((∀ t ∈ a.index, t ∉ b.index) → ∀ op, a.withSeries op b = .ok empty) := by
  have hok (op : Arithmetic) (h : ¬ (op = .div ∧ ∃ t, IsSharedZero a b t)) :
      a.withSeries op b = .ok (a.zipWith op.combine b) := by
    cases op with
    | add | sub | mul => rfl
    | div => exact divSeries_eq_ok ha hb fun hzero ↦ h ⟨rfl, hzero⟩
  have herror (op : Arithmetic) (h : op = .div ∧ ∃ t, IsSharedZero a b t) :
      ∃ first, IsLeast {t | IsSharedZero a b t} first ∧
        a.withSeries op b = .error (.alignedZeros {t | IsSharedZero a b t}.ncard first) := by
    obtain ⟨rfl, hzero⟩ := h
    exact divSeries_eq_error ha hb hzero
  refine ⟨fun op ↦ ⟨?_, fun h ↦ ⟨_, hok op h, zipWith_combines ha hb _⟩⟩, fun op e ↦ ?_,
    fun _ _ ↦ ⟨rfl, rfl⟩, fun hdisjoint op ↦ ?_⟩
  · rintro ⟨s, hs, -⟩ h
    obtain ⟨first, -, hfirst⟩ := herror op h
    cases hs.symm.trans hfirst
  · constructor
    · intro he
      by_cases h : op = .div ∧ ∃ t, IsSharedZero a b t
      · obtain ⟨first, hleast, hfirst⟩ := herror op h
        exact ⟨h.1, first, hleast, Except.error.inj (he.symm.trans hfirst)⟩
      · cases he.symm.trans (hok op h)
    · rintro ⟨hdiv, first, hleast, rfl⟩
      obtain ⟨first', hleast', hfirst⟩ := herror op ⟨hdiv, first, hleast.1⟩
      obtain rfl : first = first' :=
        Instant.eq_iff.mpr (Int.le_antisymm (hleast.2 hleast'.1) (hleast'.2 hleast.1))
      exact hfirst
  · have hnone : ¬ (op = .div ∧ ∃ t, IsSharedZero a b t) := by
      rintro ⟨-, t, hta, y, hy, -⟩
      exact hdisjoint t hta (mem_index_iff.mpr ⟨y, (get?_eq_some hb).mp hy⟩)
    rw [hok op hnone, (zipWith_combines ha hb op.combine).eq_empty hdisjoint]

/-- Three points without a zero. -/
def laterThree : Series Float := ⟨[(⟨3⟩, 1.0), (⟨4⟩, 2.0), (⟨9⟩, 4.0)]⟩

/-- Five points with three zeros, the first of which is at a moment of its own. -/
def earlierFive : Series Float :=
  ⟨[(⟨1⟩, 0.0), (⟨2⟩, 1.0), (⟨3⟩, -0.0), (⟨4⟩, 8.0), (⟨9⟩, 0.0)]⟩

/-- The earliest shared zero is at the third point of the divisor, which is the first point of the
other series. -/
theorem laterThree_withSeries :
    laterThree.withSeries .div earlierFive = .error (.alignedZeros 2 ⟨3⟩) ∧
      (∃ s, earlierFive.withSeries .div laterThree = .ok s ∧
        Combines (· / ·) earlierFive laterThree s) ∧
      (∃ s, laterThree.withSeries .sub earlierFive = .ok s ∧
        Combines (· - ·) laterThree earlierFive s) := by
  have ha : laterThree.IsIncreasing := increasing_iff.mp rfl
  have hb : earlierFive.IsIncreasing := increasing_iff.mp rfl
  have hshared : (sharedZeros laterThree earlierFive).map (·.1) = [⟨3⟩, ⟨9⟩] := by decide
  have hinc : [⟨3⟩, ⟨9⟩].Pairwise fun s t : Instant ↦ s < t := by decide
  obtain ⟨hcount, hleast⟩ : {t | IsSharedZero laterThree earlierFive t}.ncard = 2 ∧
      IsLeast {t | IsSharedZero laterThree earlierFive t} ⟨3⟩ :=
    count_and_least hinc fun t ↦ hshared ▸ mem_sharedZeros ha hb
  have hnone : ¬ ∃ t, IsSharedZero earlierFive laterThree t := by
    rintro ⟨t, -, y, hy, hzero⟩
    have hpoints : ∀ p ∈ laterThree.points, ¬ Quantity.eq p.2 Quantity.zero = true := by decide
    exact hpoints (t, y) ((get?_eq_some ha).mp hy) (Binary.eq_zero_iff_zeros.mpr hzero)
  exact ⟨((withSeries_outcome ha hb).2.1 .div _).mpr ⟨rfl, _, hleast, by rw [hcount]⟩,
    ((withSeries_outcome hb ha).1 .div).mpr fun h ↦ hnone h.2,
    ((withSeries_outcome ha hb).1 .sub).mpr fun h ↦ absurd h.1 (by decide)⟩

end Zeros

end Series

end ScorePortfolio

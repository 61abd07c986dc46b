import ScorePortfolio.Proofs.Number.Special

/-!
# Results that are not a number

An operation on what is not a number gives none.  Adding a finite double or taking it away gives
none for that reason alone; a product or a quotient can be none for others, as with a zero and an
infinity, or with two zeros.
-/

namespace ScorePortfolio

open Float.Model
open Float.Model.UnpackedFloat hiding isFinite isNaN

namespace Binary

variable {x y : Float}

/-- What is not a number when unpacked is not one when packed. -/
theorem isNaN_ofModel_pack {u : UnpackedFloat} (h : u = .notANumber) :
    (Float.ofModel (.pack u)).isNaN = true := by
  subst h
  decide

/-! ## Operands that are not a number -/

/-- Not a number in, not a number out: what holds of an operation unpacked holds of it packed. -/
theorem isNaN_of_operand (op : UnpackedFloat → UnpackedFloat → UnpackedFloat)
    (hop : ∀ u, op .notANumber u = .notANumber ∧ op u .notANumber = .notANumber)
    (h : x.isNaN = true ∨ y.isNaN = true) :
    (Float.ofModel (.pack (op x.toModel.unpack y.toModel.unpack))).isNaN = true := by
  refine isNaN_ofModel_pack ?_
  rcases h with h | h
  · rw [unpack_of_isNaN h]
    exact (hop _).1
  · rw [unpack_of_isNaN h]
    exact (hop _).2

theorem isNaN_add (h : x.isNaN = true ∨ y.isNaN = true) : (x + y).isNaN = true :=
  isNaN_of_operand (.add .binary64) (fun u ↦ by cases u <;> exact ⟨rfl, rfl⟩) h

theorem isNaN_sub (h : x.isNaN = true ∨ y.isNaN = true) : (x - y).isNaN = true :=
  isNaN_of_operand (.sub .binary64) (fun u ↦ by cases u <;> exact ⟨rfl, rfl⟩) h

theorem isNaN_mul (h : x.isNaN = true ∨ y.isNaN = true) : (x * y).isNaN = true :=
  isNaN_of_operand (.mul .binary64) (fun u ↦ by cases u <;> exact ⟨rfl, rfl⟩) h

theorem isNaN_div (h : x.isNaN = true ∨ y.isNaN = true) : (x / y).isNaN = true :=
  isNaN_of_operand (.div .binary64) (fun u ↦ by cases u <;> exact ⟨rfl, rfl⟩) h

/-- A zero times what is no finite number is not a number. -/
theorem isNaN_zero_mul (hx : magnitudeBits x = 0) (hy : ¬ y.isFinite = true) :
    (x * y).isNaN = true := by
  by_cases hnan : y.isNaN = true
  · exact isNaN_mul (.inr hnan)
  · refine isNaN_ofModel_pack (u := UnpackedFloat.mul .binary64 _ _) ?_
    rw [unpack_of_magnitudeBits hx, unpack_of_infinite hy hnan]
    rfl

/-! ## Sums and products -/

/-- What is not a number stays to the end, where it starts a run of operations or comes into it. -/
theorem isNaN_foldl {op : Float → Float → Float}
    (hop : ∀ {x y}, x.isNaN = true ∨ y.isNaN = true → (op x y).isNaN = true) {xs : List Float}
    {start : Float} (h : start.isNaN = true ∨ ∃ x ∈ xs, x.isNaN = true) :
    (xs.foldl op start).isNaN = true := by
  induction xs generalizing start with
  | nil => exact h.resolve_right fun ⟨_, hx, _⟩ ↦ List.not_mem_nil hx
  | cons y xs ih =>
    rw [List.foldl_cons]
    refine ih ?_
    rcases h with h | ⟨x, hx, h⟩
    · exact .inl (hop (.inl h))
    · rcases List.mem_cons.mp hx with rfl | hx
      · exact .inl (hop (.inr h))
      · exact .inr ⟨x, hx, h⟩

theorem isNaN_sum {xs : List Float} (hmem : x ∈ xs) (h : x.isNaN = true) :
    (Quantity.sum xs).isNaN = true :=
  isNaN_foldl isNaN_add (.inr ⟨x, hmem, h⟩)

theorem isNaN_product {xs : List Float} (hmem : x ∈ xs) (h : x.isNaN = true) :
    (Quantity.product xs).isNaN = true :=
  isNaN_foldl isNaN_mul (.inr ⟨x, hmem, h⟩)

/-! ## Finite operands -/

theorem not_isNaN_ofBits (negative : Bool) (bits : ℕ) : ¬ (ofBits negative bits).isNaN = true := by
  rw [isNaN_iff, magnitudeBits_ofBits]
  exact (Nat.min_le_right _ _).not_gt

theorem not_isNaN_ofModel_pack {u : UnpackedFloat} {s : Sign} (h : u = .infinity s) :
    ¬ (Float.ofModel (.pack u)).isNaN = true := by
  subst h
  cases s <;> decide

/-- An operation that takes infinities to infinities and finite doubles to numbers gives what is not
a number only for what is not one. -/
theorem isNaN_of_result (op : UnpackedFloat → UnpackedFloat)
    (hinfinity : ∀ s, ∃ s', op (.infinity s) = .infinity s')
    (hfinite : y.isFinite = true → ¬ (Float.ofModel (.pack (op y.toModel.unpack))).isNaN = true)
    (h : (Float.ofModel (.pack (op y.toModel.unpack))).isNaN = true) : y.isNaN = true := by
  by_contra hnan
  by_cases hy : y.isFinite = true
  · exact hfinite hy h
  · obtain ⟨s', hs'⟩ := hinfinity (signOf (isNegative y))
    rw [unpack_of_infinite hy hnan] at h
    exact not_isNaN_ofModel_pack hs' h

/-- Adding a finite double does not make anything a number, nor keep it from being one. -/
theorem isNaN_add_of_isFinite (hx : x.isFinite = true) :
    (x + y).isNaN = true ↔ y.isNaN = true := by
  refine ⟨isNaN_of_result (.add .binary64 x.toModel.unpack) (fun s ↦ ⟨s, ?_⟩) fun hy h ↦ ?_,
    fun h ↦ isNaN_add (.inr h)⟩
  · have hx : x.toModel.unpack.isFinite = true := hx
    cases hu : x.toModel.unpack with
    | notANumber | infinity =>
      rw [hu] at hx
      cases hx
    | zero | finite => rfl
  · have hnan : (x + y).isNaN = true := h
    rw [add_eq hx hy] at hnan
    exact not_isNaN_ofBits _ _ hnan

/-- Neither does taking one away. -/
theorem isNaN_sub_of_isFinite (hy : y.isFinite = true) :
    (x - y).isNaN = true ↔ x.isNaN = true := by
  refine ⟨isNaN_of_result (.sub .binary64 · y.toModel.unpack) (fun s ↦ ⟨s, ?_⟩) fun hx h ↦ ?_,
    fun h ↦ isNaN_sub (.inl h)⟩
  · have hy : y.toModel.unpack.isFinite = true := hy
    cases hu : y.toModel.unpack with
    | notANumber | infinity =>
      rw [hu] at hy
      cases hy
    | zero | finite => rfl
  · have hnan : (x - y).isNaN = true := h
    rw [sub_eq hx hy] at hnan
    exact not_isNaN_ofBits _ _ hnan

theorem isFinite_one : (Quantity.one : Float).isFinite = true := by
  rw [one_eq, isFinite_ofBits]
  exact oneBits_lt

end Binary

namespace Quantity

variable {x y : Float}

theorem isMissing_iff : isMissing x = true ↔ x.isNaN = true := by
  rw [isMissing, beq_iff_eq, Binary.isNaN_iff]
  exact Binary.nonFinite?_eq_nan

theorem not_isMissing_of_isFinite (h : x.isFinite = true) : isMissing x = false := by
  have hnone : nonFinite? x = none := Binary.nonFinite?_eq_none.mpr h
  rw [isMissing, hnone]
  rfl

theorem present?_eq_none {α : Type} [Quantity α] {x : α} :
    present? x = none ↔ isMissing x = true := by
  rw [present?]
  split
  · next h => exact iff_of_true rfl h
  · next h => exact iff_of_false (Option.some_ne_none x) h

/-- A change that is a number leads from a number to a number. -/
theorem not_isMissing_of_change (h : isMissing (change x y) = false) :
    isMissing x = false ∧ isMissing y = false := by
  simp only [← Bool.not_eq_true, isMissing_iff] at h ⊢
  have hquotient : ¬ (y / x).isNaN = true := fun hnan ↦ h (Binary.isNaN_sub (.inl hnan))
  exact ⟨fun hx ↦ hquotient (Binary.isNaN_div (.inr hx)),
    fun hy ↦ hquotient (Binary.isNaN_div (.inl hy))⟩

end Quantity

end ScorePortfolio

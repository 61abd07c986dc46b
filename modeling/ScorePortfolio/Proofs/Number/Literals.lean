import ScorePortfolio.Decimal.Literal
import ScorePortfolio.Proofs.Number.Finite

/-!
# Integers as doubles

Whatever spells an integer spells a double: the nearest one, or an infinity where the integer lies
beyond the largest double.  Zero has two nearest doubles, and the sign of the text says which one.
The converse fails, a fraction or an exponent spells a double and no integer.
-/

namespace ScorePortfolio

/-- The double is a nearest one to the integer. -/
def Binary.IsNearest (n : Int) (x : Float) : Prop :=
  x = ofInt n ∨ n = 0 ∧ x = ofBits true 0

namespace Decimal

open Binary

/-! ## Digits -/

section Digits

variable {cs whole rest : List Char} {e : ℤ}

theorem toLower_of_isDigit {c : Char} (h : c.isDigit = true) : c.toLower = c := by
  simp only [Char.isDigit, Bool.and_eq_true, decide_eq_true_eq] at h
  rw [Char.toLower, dif_neg]
  rintro ⟨hupper, -⟩
  exact absurd (UInt32.le_trans hupper h.2) (by decide)

/-- What starts with a digit is no word. -/
theorem specialWord?_of_head (h : ∃ c rest, cs = c :: rest ∧ c.isDigit = true)
    (negative : Bool) : specialWord? negative (cs.map Char.toLower) = none := by
  obtain ⟨c, rest, rfl, hc⟩ := h
  have hword {word : List Char} (hfirst : ∀ first ∈ word.head?, first.isDigit = false) :
      (c :: rest).map Char.toLower ≠ word := by
    rintro rfl
    rw [List.map_cons, toLower_of_isDigit hc] at hfirst
    cases hc.symm.trans (hfirst c rfl)
  rw [specialWord?, if_neg (hword (by simp)), if_neg]
  exact not_or.mpr ⟨hword (by simp), hword (by simp)⟩

/-- No word is made of digits. -/
theorem specialWord?_of_digits (hne : cs ≠ []) (h : ∀ c ∈ cs, c.isDigit = true) (negative : Bool) :
    specialWord? negative (cs.map Char.toLower) = none := by
  obtain ⟨c, rest, rfl⟩ := List.exists_cons_of_ne_nil hne
  exact specialWord?_of_head ⟨c, rest, rfl, h c List.mem_cons_self⟩ negative

/-- The digits before something that is no digit are what the reader takes. -/
theorem takeWhile_digits (hwhole : ∀ c ∈ whole, c.isDigit = true)
    (hrest : ∀ c ∈ rest.head?, c.isDigit = false) :
    (whole ++ rest).takeWhile Char.isDigit = whole ∧
      (whole ++ rest).dropWhile Char.isDigit = rest := by
  rw [List.takeWhile_append_of_pos hwhole, List.dropWhile_append_of_pos hwhole]
  cases rest with
  | nil => exact ⟨List.append_nil _, rfl⟩
  | cons c rest =>
    have hc : ¬ c.isDigit = true := by simpa using hrest c rfl
    rw [List.takeWhile_cons_of_neg hc, List.dropWhile_cons_of_neg hc, List.append_nil]
    exact ⟨rfl, rfl⟩

/-- Digits without a point are a natural, which an exponent may follow. -/
theorem decimal?_whole (hne : whole ≠ []) (hwhole : ∀ c ∈ whole, c.isDigit = true)
    (hrest : ∀ c ∈ rest.head?, c.isDigit = false ∧ c ≠ '.') (he : exponent? rest = some e) :
    decimal? (whole ++ rest) = some (natOfDigits whole, e) := by
  obtain ⟨htake, hdrop⟩ := takeWhile_digits hwhole fun c hc ↦ (hrest c hc).1
  have hnone : splitFraction rest = ([], rest) := by
    rw [splitFraction.eq_2]
    rintro cs rfl
    exact (hrest '.' rfl).2 rfl
  rw [decimal?, htake, hdrop, hnone]
  simp [hne, he]

theorem decimal?_of_digits (hne : cs ≠ []) (h : ∀ c ∈ cs, c.isDigit = true) :
    decimal? cs = some (natOfDigits cs, 0) := by
  have hnothing : decimal? (cs ++ []) = some (natOfDigits cs, 0) := decimal?_whole hne h nofun rfl
  rwa [List.append_nil] at hnothing

end Digits

/-! ## Integers -/

/-- A finite double that a natural is read as is the nearest one. -/
theorem nearestDecimal_zero {negative : Bool} {m : Nat}
    (h : (nearestDecimal negative m 0).isFinite = true) :
    nearestDecimal negative m 0 = nearest negative m 1 := by
  rw [nearestDecimal] at h ⊢
  split at h
  · next hzero =>
    obtain rfl : m = 0 := by omega
    rw [if_pos hzero, nearest, Nat.zero_mul, nearestBits_zero]
  next hfirst =>
  split at h
  · rw [isFinite_ofBits] at h
    exact absurd h (lt_irrefl _)
  · next hrange =>
    rw [if_neg hfirst, if_neg hrange, if_pos le_rfl]
    simp

/-- What spells an integer spells a double. -/
theorem double?_of_integer? {s : String} {n : Int} (h : integer? s = some n) :
    ∃ negative m, double? s = some (nearestDecimal negative m 0) ∧
      n = if negative then -(m : Int) else m := by
  obtain ⟨cs, hcs, h⟩ := Option.bind_eq_some_iff.mp h
  obtain ⟨negative, digits, hsplit⟩ : ∃ negative digits, splitSign cs = (negative, digits) :=
    ⟨_, _, rfl⟩
  simp only [hsplit] at h
  split at h
  · cases h
  next hdigits =>
  simp only [Bool.or_eq_true, Bool.not_eq_true', not_or, decide_eq_true_eq, List.isEmpty_iff,
    Bool.not_eq_false, List.all_eq_true] at hdigits
  obtain ⟨⟨hne, hall⟩, -⟩ := hdigits
  refine ⟨negative, natOfDigits digits, ?_, ?_⟩
  · simp [double?, hcs, hsplit, specialWord?_of_digits hne hall, decimal?_of_digits hne hall]
  · cases negative <;> simpa using h.symm

/-- A finite double whose text spells an integer is a nearest one. -/
theorem isNearest_of_integer? {s : String} {n : Int} {x : Float} (hn : integer? s = some n)
    (hx : double? s = some x) (hfin : x.isFinite = true) : IsNearest n x := by
  obtain ⟨negative, m, hdouble, rfl⟩ := double?_of_integer? hn
  obtain rfl := Option.some.inj (hx.symm.trans hdouble)
  rw [nearestDecimal_zero hfin]
  cases negative with
  | false =>
    have hsign : decide ((m : Int) < 0) = false := decide_eq_false (by omega)
    exact .inl (by simp [ofInt, hsign])
  | true =>
    rcases Nat.eq_zero_or_pos m with rfl | hm
    · exact .inr ⟨rfl, by simp [nearest]⟩
    · exact .inl (by simp [ofInt, hm])

end Decimal

end ScorePortfolio

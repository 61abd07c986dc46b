import ScorePortfolio.Decimal.Literal
import Mathlib.Algebra.Order.Ring.Nat
import Mathlib.Data.List.TakeWhile

/-!
# Naturals as literals

The text of a natural spells it, if it does not have more digits than a literal may have.  Neither
blanks nor other scripts nor underscores come in: ASCII digits are read as they stand.
-/

namespace ScorePortfolio

namespace Text

theorem toNat_of_isDigit {c : Char} (h : c.isDigit = true) : 48 ≤ c.toNat ∧ c.toNat ≤ 57 := by
  simpa [Char.isDigit, UInt32.le_iff_toNat_le] using h

/-- Digits are not trimmed. -/
theorem isBlank_of_isDigit {c : Char} (h : c.isDigit = true) : isBlank c = false := by
  obtain ⟨hlow, hhigh⟩ := toNat_of_isDigit h
  have hspace : c ≠ ' ' := by
    rintro rfl
    cases h
  have hwide : c.toNat ∉ wideBlanks := fun hmem ↦ by
    have hleast : ∀ n ∈ wideBlanks, 57 < n := by decide
    exact absurd (hleast _ hmem) hhigh.not_gt
  simp only [isBlank, isAsciiBlank, Bool.or_eq_false_iff, Bool.and_eq_false_iff,
    decide_eq_false_iff_not, beq_eq_false_iff_ne, List.contains_eq_mem]
  exact ⟨⟨.inr (by omega), hspace⟩, hwide⟩

theorem trim_eq_self {cs : List Char} (h : ∀ c ∈ cs, isBlank c = false) : trim cs = cs := by
  have hkeep {l : List Char} (hl : ∀ c ∈ l, isBlank c = false) : l.dropWhile isBlank = l := by
    cases l with
    | nil => rfl
    | cons c l => exact List.dropWhile_cons_of_neg (by rw [hl c List.mem_cons_self]; nofun)
  rw [trim, hkeep h, hkeep fun c hc ↦ h c (List.mem_reverse.mp hc), List.reverse_reverse]

end Text

namespace Decimal

open Text

variable {cs : List Char} {s : String}

/-- An ASCII digit counts as itself. -/
theorem plain?_of_isDigit {c : Char} (h : c.isDigit = true) : plain? c = some c := by
  obtain ⟨hlow, hhigh⟩ := toNat_of_isDigit h
  have hzero : zeros.find? (fun z ↦ z ≤ c.toNat ∧ c.toNat < z + 10) = some 48 :=
    List.find?_cons_of_pos (decide_eq_true ⟨hlow, by omega⟩)
  have hchar : digitChar (c.toNat - 48) = c := by
    rw [digitChar, Nat.add_sub_cancel' hlow, Char.ofNat_toNat]
  simp only [plain?, digit?, hzero, Option.map_some, hchar]

/-- Without underscores there is nothing to join. -/
theorem joinDigits?_eq_self (h : '_' ∉ cs) (afterDigit : Bool) :
    joinDigits? afterDigit cs = some cs := by
  induction cs generalizing afterDigit with
  | nil => rfl
  | cons c cs ih =>
    rw [List.mem_cons, not_or] at h
    rw [joinDigits?, ih h.2, Option.map_some]
    exact fun heq ↦ h.1 heq.symm

/-- Characters that neither are blanks, nor stand for others, nor are underscores are read as they
stand. -/
theorem numeral?_eq_self (hblank : ∀ c ∈ s.toList, isBlank c = false)
    (hplain : ∀ c ∈ s.toList, plain? c = some c) (hline : '_' ∉ s.toList) :
    numeral? s = some s.toList := by
  have hchars : s.toList.mapM plain? = some s.toList := by
    generalize s.toList = cs at hplain
    induction cs with
    | nil => rfl
    | cons c cs ih =>
      rw [List.forall_mem_cons] at hplain
      rw [List.mapM_cons, hplain.1, ih hplain.2]
      rfl
  rw [numeral?, trim_eq_self hblank, hchars, Option.bind_some, joinDigits?_eq_self hline]

theorem numeral?_of_digits (h : ∀ c ∈ s.toList, c.isDigit = true) :
    numeral? s = some s.toList :=
  numeral?_eq_self (fun c hc ↦ isBlank_of_isDigit (h c hc)) (fun c hc ↦ plain?_of_isDigit (h c hc))
    fun hmem ↦ by cases h _ hmem

/-- Digits have no sign in front. -/
theorem splitSign_of_digits (h : ∀ c ∈ cs, c.isDigit = true) : splitSign cs = (false, cs) := by
  rw [splitSign.eq_3]
  · rintro rest rfl
    cases h '-' List.mem_cons_self
  · rintro rest rfl
    cases h '+' List.mem_cons_self

/-- Digits spell the natural that they are the decimal digits of. -/
theorem integer?_of_digits (hne : s.toList ≠ []) (h : ∀ c ∈ s.toList, c.isDigit = true)
    (hlen : s.toList.length ≤ digitLimit) : integer? s = some (natOfDigits s.toList : ℤ) := by
  rw [integer?, numeral?_of_digits h]
  simp only [Option.bind_eq_bind, Option.bind_some, splitSign_of_digits h]
  rw [if_neg]
  · rfl
  · simp only [Bool.or_eq_true, List.isEmpty_iff, Bool.not_eq_true', decide_eq_true_eq, not_or,
      Bool.not_eq_false, List.all_eq_true]
    exact ⟨⟨hne, h⟩, hlen.not_gt⟩

theorem natOfDigits_toDigits (n : ℕ) : natOfDigits (Nat.toDigits 10 n) = n :=
  Nat.ofDigitChars_toDigits (by decide) (by decide)

theorem toList_toString (n : ℕ) : (toString n).toList = Nat.toDigits 10 n := Nat.toList_repr

/-- A natural is what its text spells. -/
theorem integer?_toString {n : ℕ} (h : n < 10 ^ digitLimit) :
    integer? (toString n) = some (n : ℤ) := by
  have hchars := toList_toString n
  have hlen : (Nat.toDigits 10 n).length ≤ digitLimit :=
    (Nat.length_toDigits_le_iff (by decide) (by decide)).mpr h
  rw [integer?_of_digits (hchars ▸ Nat.toDigits_ne_nil)
    (fun c hc ↦ Nat.isDigit_of_mem_toDigits (by decide) (by decide) (hchars ▸ hc)) (hchars ▸ hlen),
    hchars, natOfDigits_toDigits]

/-- A natural number that is not too long is read from its own decimal digits. -/
theorem integer?_toString_int {w : ℤ} (hpos : 0 ≤ w) (h : w < 10 ^ digitLimit) :
    integer? (toString w) = some w := by
  obtain ⟨n, rfl⟩ := Int.eq_ofNat_of_zero_le hpos
  have hn : n < 10 ^ digitLimit := by
    rw [← Int.ofNat_lt, Int.natCast_pow]
    exact h
  exact integer?_toString hn

end Decimal

end ScorePortfolio

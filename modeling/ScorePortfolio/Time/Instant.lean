/-!
# Instants

A moment is a whole number of nanoseconds since the start of 1970.  An index can hold the moments
that fit into a signed 64-bit count, whose least value is set aside for the missing moment; a
missing one is `none` here.
-/

namespace ScorePortfolio

/-- A moment. -/
structure Instant where
  /-- The nanoseconds since the start of 1970. -/
  nanoseconds : Int
deriving DecidableEq, Repr

namespace Instant

instance : LT Instant := ⟨fun s t ↦ s.nanoseconds < t.nanoseconds⟩

instance : LE Instant := ⟨fun s t ↦ s.nanoseconds ≤ t.nanoseconds⟩

instance (s t : Instant) : Decidable (s < t) := inferInstanceAs (Decidable (_ < (_ : Int)))

instance (s t : Instant) : Decidable (s ≤ t) := inferInstanceAs (Decidable (_ ≤ (_ : Int)))

theorem lt_iff {s t : Instant} : s < t ↔ s.nanoseconds < t.nanoseconds := Iff.rfl

theorem le_iff {s t : Instant} : s ≤ t ↔ s.nanoseconds ≤ t.nanoseconds := Iff.rfl

theorem eq_iff {s t : Instant} : s = t ↔ s.nanoseconds = t.nanoseconds := by
  cases s; cases t; simp

theorem lt_irrefl (t : Instant) : ¬ t < t := Int.lt_irrefl _

theorem le_refl (t : Instant) : t ≤ t := Int.le_refl _

theorem lt_trans {r s t : Instant} (h : r < s) (h' : s < t) : r < t := Int.lt_trans h h'

theorem not_lt {s t : Instant} : ¬ s < t ↔ t ≤ s := Int.not_lt

theorem not_le {s t : Instant} : ¬ s ≤ t ↔ t < s := Int.not_le

/-- The first moment that an index can hold. -/
def earliest : Instant := ⟨-9223372036854775807⟩

/-- The last moment that an index can hold. -/
def latest : Instant := ⟨9223372036854775807⟩

/-- Whether an index can hold the moment. -/
def InRange (t : Instant) : Prop := earliest ≤ t ∧ t ≤ latest

instance (t : Instant) : Decidable t.InRange := inferInstanceAs (Decidable (_ ∧ _))

/-- The moment a number of nanoseconds later. -/
def after (t : Instant) (nanoseconds : Int) : Instant := ⟨t.nanoseconds + nanoseconds⟩

/-- The order of moments with the missing one after all others. -/
def missingLastLE : Option Instant → Option Instant → Bool
  | _, none => true
  | none, some _ => false
  | some s, some t => s ≤ t

end Instant

/-- A moment beyond the range of an index. -/
structure OutOfRange where
  /-- The moment that does not fit. -/
  instant : Instant
deriving DecidableEq, Repr

/-- The moment, if an index can hold it. -/
def Instant.fit (t : Instant) : Except OutOfRange Instant :=
  if t.InRange then .ok t else .error ⟨t⟩

end ScorePortfolio

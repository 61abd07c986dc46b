import ScorePortfolio.Series.Basic

/-!
# Cuts of a series at a moment

The parts of a series up to, before, from and after a moment.  The missing moment lies after all
others, so the first two keep everything at it and the last two nothing.
-/

namespace ScorePortfolio

/-- The moment, if an index could hold it; a missing one always passes. -/
def Instant.fitOf : Option Instant → Except OutOfRange (Option Instant)
  | none => .ok none
  | some t => t.fit.map some

namespace Series

variable {α : Type}

/-- The points up to a moment, this one included. -/
def upTo (s : Series α) : Option Instant → Series α
  | none => s
  | some t => ⟨s.points.takeWhile (·.1 ≤ t)⟩

/-- The points before a moment. -/
def before (s : Series α) : Option Instant → Series α
  | none => s
  | some t => ⟨s.points.takeWhile (·.1 < t)⟩

/-- The points from a moment on, this one included. -/
def fromOn (s : Series α) : Option Instant → Series α
  | none => empty
  | some t => ⟨s.points.dropWhile (·.1 < t)⟩

/-- The points after a moment. -/
def after (s : Series α) : Option Instant → Series α
  | none => empty
  | some t => ⟨s.points.dropWhile (·.1 ≤ t)⟩

end Series

end ScorePortfolio

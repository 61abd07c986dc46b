import ScorePortfolio.Series.Basic

/-!
# Shared moments

Two series are joined on the moments that both have: `sharedPoints` walks them side by side and
never goes back.  Alignment, the positions of shared moments and the arithmetic of two series are
all read from that one walk.
-/

namespace ScorePortfolio

/-- The moments that two lists of points share, each with both values; both lists are in order. -/
def sharedPoints {β γ : Type} :
    List (Instant × β) → List (Instant × γ) → List (Instant × β × γ)
  | [], _ => []
  | (t, x) :: ps, qs =>
    match qs.dropWhile (·.1 < t) with
    | [] => []
    | (u, y) :: rest =>
      if u = t then (t, x, y) :: sharedPoints ps rest else sharedPoints ps ((u, y) :: rest)

/-- The positions of shared moments in either of two lists. -/
def sharedPositions (left right : List Instant) : List Nat × List Nat :=
  (sharedPoints left.zipIdx right.zipIdx).map (·.2) |>.unzip

namespace Series

variable {α : Type}

/-- Two series restricted to the moments that both have. -/
def align (a b : Series α) : Series α × Series α :=
  let shared := sharedPoints a.points b.points
  (⟨shared.map fun (t, x, _) ↦ (t, x)⟩, ⟨shared.map fun (t, _, y) ↦ (t, y)⟩)

/-- A function of both values at each shared moment. -/
def zipWith (f : α → α → α) (a b : Series α) : Series α :=
  ⟨(sharedPoints a.points b.points).map fun (t, x, y) ↦ (t, f x y)⟩

end Series

end ScorePortfolio

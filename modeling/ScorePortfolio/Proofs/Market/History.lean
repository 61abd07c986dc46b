import ScorePortfolio.Proofs.Series.Cut
import ScorePortfolio.Market.TableClient

/-!
# Clients that keep history

A client keeps history if what it answers as of a moment is what it answers as of any later one, cut
at the moment.  The client of a market does, since it cuts the history of a column.
-/

namespace ScorePortfolio

variable {α : Type}

/-- Every answer is a series in order, and is the cut of the answers as of later moments. -/
structure Client.KeepsHistory (c : Client α) : Prop where
  increasing : ∀ {asset t field s}, c.query asset t field = .ok s → s.IsIncreasing
  upTo : ∀ {asset t₁ t₂ field s}, t₁.InRange → t₂.InRange → t₁ ≤ t₂ →
    c.query asset (some t₂) field = .ok s → c.query asset (some t₁) field = .ok (s.upTo (some t₁))

namespace Market

theorem asOf_of_inRange (history : Series α) {t : Instant} (h : t.InRange) :
    asOf history (some t) = .ok (history.upTo (some t)) := by
  rw [asOf, Instant.fitOf, Instant.fit, if_pos h]
  rfl

/-- A history as of a moment is the history cut there. -/
theorem asOf_eq_ok {history s : Series α} {t : Option Instant} (h : asOf history t = .ok s) :
    s = history.upTo t := by
  cases t with
  | none => exact (Except.ok.inj h).symm
  | some t =>
    by_cases ht : t.InRange
    · exact (Except.ok.inj ((asOf_of_inRange history ht).symm.trans h)).symm
    · rw [asOf, Instant.fitOf, Instant.fit, if_neg ht] at h
      cases h

variable [Quantity α] {m : Market α}

/-- A query that names a field cuts the history of the field. -/
theorem query_eq_ok {field : String} {asset : Asset} {s : Series α} (hfield : field ≠ "")
    (h : m.history field asset = .ok s) {t : Option Instant} (ht : ∀ u, t = some u → u.InRange) :
    m.query asset t (some field) = .ok (s.upTo t) := by
  rw [query, chosenField, if_neg hfield, h, ok_bind]
  cases t with
  | none => rfl
  | some t => exact asOf_of_inRange s (ht t rfl)

/-- A query is answered only as of a moment that an index can hold. -/
theorem inRange_of_query {asset : Asset} {t : Instant} {field : Option String} {s : Series α}
    (h : m.query asset (some t) field = .ok s) : t.InRange := by
  obtain ⟨history, -, hcut⟩ := bind_eq_ok.mp h
  by_contra hout
  rw [asOf, Instant.fitOf, Instant.fit, if_neg hout] at hcut
  cases hcut

theorem isIncreasing_of_ofCells {items : List (Option Instant × α)} {s : Series α}
    (h : Series.ofCells items = .ok s) : s.IsIncreasing := by
  obtain ⟨fitted, -, h⟩ := bind_eq_ok.mp h
  exact Series.isIncreasing_of_ofColumns (mapError_eq_ok.mp h)

/-- A history is in strictly increasing order of dates. -/
theorem history_isIncreasing {field : String} {asset : Asset} {s : Series α}
    (h : m.history field asset = .ok s) : s.IsIncreasing := by
  rw [history] at h
  split at h
  · cases h
  split at h
  · cases h
  split at h
  · cases h
  split at h
  · next hs =>
    obtain rfl := Except.ok.inj h
    exact isIncreasing_of_ofCells hs
  · cases h
  · cases h

/-- The client of a market keeps history. -/
theorem client_keepsHistory (m : Market α) : m.client.KeepsHistory := by
  refine ⟨fun {asset t field s} h ↦ ?_, fun {asset t₁ t₂ field s} h₁ h₂ hle h ↦ ?_⟩
  · obtain ⟨history, hhist, h⟩ := bind_eq_ok.mp h
    obtain rfl := asOf_eq_ok h
    exact (history_isIncreasing hhist).upTo t
  · obtain ⟨history, hhist, h⟩ := bind_eq_ok.mp h
    obtain rfl := asOf_eq_ok h
    rw [Series.upTo_upTo _ hle]
    exact bind_eq_ok.mpr ⟨history, hhist, asOf_of_inRange history h₁⟩

end Market

end ScorePortfolio

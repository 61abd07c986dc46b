import ScorePortfolio.Proofs.Graph.Built
import ScorePortfolio.Proofs.Evaluation.Pass

/-!
# The meaning of a calculation

What a calculation stands for, for an asset as of a moment, is read from the strategy alone: its
operands name other calculations, whose meanings it combines.  No order, no position and no graph
comes in.  A calculation has one meaning at most, since names tell calculations apart.
-/

namespace ScorePortfolio

/-- The literal of the first operand of a role, if it has one. -/
def Calculation.literal? (c : Calculation) (role : String) : Option String :=
  (c.operand? (.text role)).bind (·.value)

namespace Strategy

variable {α : Type} [Quantity α]

/-- The calculation stands for the series. -/
inductive Means (s : Strategy) (client : Client α) (asset : Asset) (t : Option Instant) :
    Calculation → Series α → Prop where
  | query {c x} : c.operation = .query → client.query asset t (c.literal? "field") = .ok x →
      Means s client asset t c x
  | scalar {c op v src a k y x} : c.operation = .scalar op →
      c.literal? "time_series" = some v → src ∈ s.calculations → src.name = .text v →
      Means s client asset t src a → c.literal? "scalar" = some k → Decimal.double? k = some y →
      a.withScalar op (Quantity.ofFloat y) = .ok x → Means s client asset t c x
  | series {c op v w left right a b x} : c.operation = .series op →
      c.literal? "left" = some v → left ∈ s.calculations → left.name = .text v →
      Means s client asset t left a →
      c.literal? "right" = some w → right ∈ s.calculations → right.name = .text w →
      Means s client asset t right b →
      a.withSeries op b = .ok x → Means s client asset t c x
  | sma {c v src a k w x} : c.operation = .sma →
      c.literal? "time_series" = some v → src ∈ s.calculations → src.name = .text v →
      Means s client asset t src a → c.literal? "window_size" = some k →
      Decimal.integer? k = some w → a.sma w = .ok x → Means s client asset t c x

/-- The calculation of the name stands for the series. -/
def NameMeans (s : Strategy) (client : Client α) (asset : Asset) (t : Option Instant) (n : Scalar)
    (x : Series α) : Prop :=
  ∃ c ∈ s.calculations, c.name = .scalar n ∧ s.Means client asset t c x

end Strategy

/-! ## Literals of compiled operands -/

namespace Calculation

variable {c : Calculation} {role : String}

theorem Refers.literal {v : String} (h : c.Refers role v) : c.literal? role = some v := by
  obtain ⟨o, ho, -, hv⟩ := h
  rw [literal?, ho, Option.bind_some, hv]

theorem HasField.literal {f : Option String} (h : c.HasField role f) : c.literal? role = f := by
  rcases h with ⟨hnone, rfl⟩ | ⟨o, ho, -, hv⟩
  · rw [literal?, hnone, Option.bind_none]
  · rw [literal?, ho, Option.bind_some, hv]

theorem HasNumber.literal {x : Float} (h : c.HasNumber role x) :
    ∃ k, c.literal? role = some k ∧ Decimal.double? k = some x := by
  obtain ⟨o, k, ho, -, hv, hk, -⟩ := h
  exact ⟨k, by rw [literal?, ho, Option.bind_some, hv], hk⟩

theorem HasWindow.literal {w : Int} (h : c.HasWindow role w) :
    ∃ k, c.literal? role = some k ∧ Decimal.integer? k = some w := by
  obtain ⟨o, k, ho, -, hv, hk, -⟩ := h
  exact ⟨k, by rw [literal?, ho, Option.bind_some, hv], hk⟩

end Calculation

namespace Strategy

/-! ## Uniqueness -/

section Unique

variable {α : Type} [Quantity α] {s : Strategy} {strict : Bool} {p : Plan} {client : Client α}
  {asset : Asset} {t : Option Instant}

/-- A calculation of a planned strategy means one series. -/
theorem Means.unique (hp : s.Planned strict p) {c : Calculation} {x y : Series α}
    (hx : s.Means client asset t c x) (hy : s.Means client asset t c y) : x = y := by
  induction hx generalizing y with
  | query hop hq =>
    cases hy with
    | query _ hq' => exact Except.ok.inj (hq.symm.trans hq')
    | scalar hop' | series hop' | sma hop' => cases hop.symm.trans hop'
  | scalar hop hv hsrc hname _ hk hnum hx ih =>
    cases hy with
    | scalar hop' hv' hsrc' hname' ha' hk' hnum' hy =>
      obtain rfl := Operation.scalar.inj (hop.symm.trans hop')
      obtain rfl := Option.some.inj (hv.symm.trans hv')
      obtain rfl := hp.calculation_unique hsrc hsrc' hname hname'
      obtain rfl := ih ha'
      obtain rfl := Option.some.inj (hk.symm.trans hk')
      obtain rfl := Option.some.inj (hnum.symm.trans hnum')
      exact Except.ok.inj (hx.symm.trans hy)
    | query hop' | series hop' | sma hop' => cases hop.symm.trans hop'
  | series hop hv hl hln _ hw hr hrn _ hx ihl ihr =>
    cases hy with
    | series hop' hv' hl' hln' ha' hw' hr' hrn' hb' hy =>
      obtain rfl := Operation.series.inj (hop.symm.trans hop')
      obtain rfl := Option.some.inj (hv.symm.trans hv')
      obtain rfl := Option.some.inj (hw.symm.trans hw')
      obtain rfl := hp.calculation_unique hl hl' hln hln'
      obtain rfl := hp.calculation_unique hr hr' hrn hrn'
      obtain rfl := ihl ha'
      obtain rfl := ihr hb'
      exact Except.ok.inj (hx.symm.trans hy)
    | query hop' | scalar hop' | sma hop' => cases hop.symm.trans hop'
  | sma hop hv hsrc hname _ hk hnum hx ih =>
    cases hy with
    | sma hop' hv' hsrc' hname' ha' hk' hnum' hy =>
      obtain rfl := Option.some.inj (hv.symm.trans hv')
      obtain rfl := hp.calculation_unique hsrc hsrc' hname hname'
      obtain rfl := ih ha'
      obtain rfl := Option.some.inj (hk.symm.trans hk')
      obtain rfl := Option.some.inj (hnum.symm.trans hnum')
      exact Except.ok.inj (hx.symm.trans hy)
    | query hop' | scalar hop' | series hop' => cases hop.symm.trans hop'

/-- What a name means is what its calculation means. -/
theorem nameMeans_iff (hp : s.Planned strict p) {c : Calculation} (hc : c ∈ s.calculations)
    {n : Scalar} (hn : c.name = .scalar n) {x : Series α} :
    s.NameMeans client asset t n x ↔ s.Means client asset t c x := by
  constructor
  · rintro ⟨c', hc', hn', hx⟩
    exact hp.calculation_unique hc' hc hn' hn ▸ hx
  · intro hx
    exact ⟨c, hc, hn, hx⟩

theorem NameMeans.unique (hp : s.Planned strict p) {n : Scalar} {x y : Series α}
    (hx : s.NameMeans client asset t n x) (hy : s.NameMeans client asset t n y) : x = y := by
  obtain ⟨c, hc, hn, hx⟩ := hx
  exact hx.unique hp ((nameMeans_iff hp hc hn).mp hy)

end Unique

end Strategy

end ScorePortfolio

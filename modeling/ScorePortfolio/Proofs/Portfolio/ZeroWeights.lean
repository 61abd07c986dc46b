import ScorePortfolio.Proofs.Number.Missing
import ScorePortfolio.Proofs.Number.Sums
import ScorePortfolio.Proofs.Portfolio.TableReturns

/-!
# Weights of zero

The return of a portfolio adds up over all its assets, also those with a weight of zero.  As long as
the change of such an asset is finite it leaves the return as it is, to the last bit, so two clients
that differ in such changes only give the same returns.  A weight of zero does not keep out a change
that is no finite number: the return is not a number then.
-/

namespace ScorePortfolio

open Binary

namespace Client

variable {c c' : Client Float} {t : Instant} {history : History Float}

/-! ## Returns at a moment -/

/-- Two clients give the same change of an asset, or finite ones if its weight is zero. -/
def AgreesOn (c c' : Client Float) (t : Instant) (asset : Asset) (weight : Float) : Prop :=
  ∃ x x', c.changeAt t asset = .ok x ∧ c'.changeAt t asset = .ok x' ∧
    (Quantity.eq weight Quantity.zero = false → x = x') ∧
    (Quantity.eq weight Quantity.zero = true → x.isFinite = true ∧ x'.isFinite = true)

/-- Both clients take a running sum to the same next one. -/
theorem AgreesOn.exists_next {asset : Asset} {weight : Float} (h : c.AgreesOn c' t asset weight)
    {sum : Float} (hsum : ¬ IsNegativeZero sum) :
    ∃ next, ¬ IsNegativeZero next ∧
      ((c.changeAt t asset).map fun change ↦ sum + weight * change) = .ok next ∧
      ((c'.changeAt t asset).map fun change ↦ sum + weight * change) = .ok next := by
  obtain ⟨x, x', hx, hx', hsame, hfinite⟩ := h
  rw [hx, hx']
  cases hzero : Quantity.eq weight Quantity.zero with
  | true =>
    have hbits := eq_zero_iff.mp hzero
    have hkept {y : Float} (hy : y.isFinite = true) : sum + weight * y = sum :=
      add_of_magnitudeBits hsum (magnitudeBits_mul hbits hy)
    obtain ⟨hx, hx'⟩ := hfinite hzero
    exact ⟨sum, hsum, congrArg Except.ok (hkept hx), congrArg Except.ok (hkept hx')⟩
  | false =>
    obtain rfl := hsame hzero
    exact ⟨_, mt isNegativeZero_of_add hsum, rfl, rfl⟩

/-- Clients that agree on each weight, in the change or on the weight being zero and the changes
finite, give the same portfolio return. -/
theorem exists_portfolioReturn {weights : List (Asset × Float)}
    (h : ∀ e ∈ weights, c.AgreesOn c' t e.1 e.2) :
    ∃ r, c.portfolioReturn t weights = .ok r ∧ c'.portfolioReturn t weights = .ok r := by
  -- the running sum starts at the positive zero, so it is never the negative one
  suffices hfold : ∀ sum, ¬ IsNegativeZero sum → ∃ r,
      (weights.foldlM (fun sum e ↦ (c.changeAt t e.1).map fun change ↦ sum + e.2 * change) sum =
        .ok r) ∧
      (weights.foldlM (fun sum e ↦ (c'.changeAt t e.1).map fun change ↦ sum + e.2 * change) sum =
        .ok r) from hfold _ not_isNegativeZero_zero
  induction weights with
  | nil => exact fun sum _ ↦ ⟨sum, rfl, rfl⟩
  | cons e weights ih =>
    rw [List.forall_mem_cons] at h
    intro sum hsum
    obtain ⟨next, hnext, he, he'⟩ := h.1.exists_next hsum
    obtain ⟨r, hr, hr'⟩ := ih h.2 next hnext
    refine ⟨r, ?_, ?_⟩
    · rw [List.foldlM_cons, he]
      exact hr
    · rw [List.foldlM_cons, he']
      exact hr'

/-- The return is not a number if an asset of no weight has a change that is no finite number. -/
theorem isNaN_portfolioReturn {weights : List (Asset × Float)} {r : Float}
    (h : c.portfolioReturn t weights = .ok r) {asset : Asset} {weight change : Float}
    (hmem : (asset, weight) ∈ weights) (hzero : Quantity.eq weight Quantity.zero = true)
    (hchange : c.changeAt t asset = .ok change) (hinfinite : ¬ change.isFinite = true) :
    r.isNaN = true := by
  obtain ⟨products, hproducts, rfl⟩ := portfolioReturn_eq_ok h
  obtain ⟨i, hi, hentry⟩ := List.getElem_of_mem hmem
  have hi' : i < products.length := hproducts.length_eq ▸ hi
  obtain ⟨x, hx, hproduct⟩ : ∃ x, c.changeAt t asset = .ok x ∧ products[i] = weight * x := by
    have hget := hproducts.get hi hi'
    rwa [List.get_eq_getElem, hentry] at hget
  obtain rfl := Except.ok.inj (hchange.symm.trans hx)
  exact isNaN_sum (hproduct ▸ List.getElem_mem hi')
    (isNaN_zero_mul (eq_zero_iff.mp hzero) hinfinite)

/-! ## Returns over a history -/

/-- What an asset does while its weight is zero has no influence on the returns, as long as its
changes are finite. -/
theorem performance_of_zeroWeights
    (h : ∀ step ∈ steps history, ∀ e ∈ step.1.2.weights, c.AgreesOn c' step.2.1 e.1 e.2) :
    c.performance (history.map fun (t, a) ↦ (some t, a)) =
        c'.performance (history.map fun (t, a) ↦ (some t, a)) ∧
      (history ≠ [] → (history.map (·.1)).Pairwise (· < ·) →
        (∀ step ∈ steps history, step.2.1.InRange) →
        ∃ r, c.performance (history.map fun (t, a) ↦ (some t, a)) = .ok r) := by
  have hearned (step) (hstep : step ∈ steps history) := exists_portfolioReturn (h step hstep)
  constructor
  · rw [performance_eq, performance_eq, returns_congr fun step hstep ↦ ?_]
    obtain ⟨r, hr, hr'⟩ := hearned step hstep
    rw [hr, hr']
  · intro hne hlt hrange
    obtain ⟨r, hr⟩ := exists_returns (fun step hstep ↦ (hearned step hstep).imp fun _ ↦ And.left)
      hrange
    exact ⟨r, performance_eq_ok.mpr ⟨hne, hlt, hr⟩⟩

end Client

/-! ## Two assets over two days -/

/-- An asset that doubles its price, and one with the given prices. -/
def pairMarket (first last : Float) : Market Float where
  prices := ⟨[some ⟨1⟩, some ⟨2⟩], [(.text "A", [1, 2]), (.text "B", [first, last])]⟩
  fields := []
  defaultField := closeField

/-- The changes of both assets. -/
def pairCache (first last : Float) : Market.Cache Float :=
  [((changeField, "A"), ⟨[(⟨2⟩, Quantity.change 1 2)]⟩),
   ((changeField, "B"), ⟨[(⟨2⟩, Quantity.change first last)]⟩)]

theorem pairMarket_holds {first last : Float}
    (h : Quantity.isMissing (Quantity.change first last) = false) :
    (pairMarket first last).Holds (pairCache first last) := by
  have hnumbers {x y : Float} (h : Quantity.isMissing (Quantity.change x y) = false) :
      (Series.changesOfDays [⟨1⟩, ⟨2⟩] [x, y]).numbers = ⟨[(⟨2⟩, Quantity.change x y)]⟩ :=
    Series.numbers_eq_self (List.forall_mem_singleton.mpr h)
  have hholds : (pairMarket first last).Holds
      (Market.dailyCache [⟨1⟩, ⟨2⟩] [("A", [1, 2]), ("B", [first, last])]) :=
    Market.ofDays_holds (by decide) (by decide) (by decide : ["A", "B"].Nodup)
  refine fun e he ↦ hholds e ?_
  have hA := hnumbers (x := 1) (y := 2) (by decide +kernel)
  simp only [pairCache, List.mem_cons, List.not_mem_nil, or_false] at he
  simp only [Market.dailyCache, List.flatMap_cons, List.flatMap_nil, List.cons_append,
    List.nil_append, List.mem_cons, hA, hnumbers h]
  rcases he with rfl | rfl
  · exact .inr (.inl rfl)
  · exact .inr (.inr (.inr (.inl rfl)))

theorem pairMarket_changeAt {first last : Float}
    (h : Quantity.isMissing (Quantity.change first last) = false) :
    (pairMarket first last).client.changeAt ⟨2⟩ ⟨"A"⟩ = .ok (Quantity.change 1 2) ∧
      (pairMarket first last).client.changeAt ⟨2⟩ ⟨"B"⟩ = .ok (Quantity.change first last) := by
  rw [← (pairMarket_holds h).cachedClient_eq]
  exact ⟨rfl, rfl⟩

/-- All weight is on the first asset. -/
def pairHistory : History Float := [
  (⟨1⟩, ⟨some ⟨1⟩, [(⟨"A"⟩, 1), (⟨"B"⟩, 0)]⟩),
  (⟨2⟩, ⟨some ⟨2⟩, [(⟨"A"⟩, 1), (⟨"B"⟩, 0)]⟩)]

theorem forall_pairHistory {p : Instant → Asset → Float → Prop} (hA : p ⟨2⟩ ⟨"A"⟩ 1)
    (hB : p ⟨2⟩ ⟨"B"⟩ 0) :
    ∀ step ∈ steps pairHistory, ∀ e ∈ step.1.2.weights, p step.2.1 e.1 e.2 := by
  intro step hstep e he
  obtain rfl := List.mem_singleton.mp hstep
  simp only [List.mem_cons, List.not_mem_nil, or_false] at he
  rcases he with rfl | rfl
  · exact hA
  · exact hB

/-- Nothing is to be seen of a price that triples in one market and halves in the other. -/
theorem pairMarket_performance :
    (pairMarket 1 3).client.performance (pairHistory.map fun (t, a) ↦ (some t, a)) =
        (pairMarket 2 1).client.performance (pairHistory.map fun (t, a) ↦ (some t, a)) ∧
      ∃ r, (pairMarket 1 3).client.performance (pairHistory.map fun (t, a) ↦ (some t, a)) =
        .ok r := by
  have htripled : Quantity.isMissing (Quantity.change (1 : Float) 3) = false := by decide +kernel
  have hhalved : Quantity.isMissing (Quantity.change (2 : Float) 1) = false := by decide +kernel
  have hagrees : ∀ step ∈ steps pairHistory, ∀ e ∈ step.1.2.weights,
      (pairMarket 1 3).client.AgreesOn (pairMarket 2 1).client step.2.1 e.1 e.2 := by
    refine forall_pairHistory ?_ ?_
    · exact ⟨_, _, (pairMarket_changeAt htripled).1, (pairMarket_changeAt hhalved).1, fun _ ↦ rfl,
        fun hzero ↦ absurd hzero (by decide)⟩
    · exact ⟨_, _, (pairMarket_changeAt htripled).2, (pairMarket_changeAt hhalved).2,
        fun hzero ↦ absurd hzero (by decide +kernel), fun _ ↦ by decide +kernel⟩
  obtain ⟨hsame, hexists⟩ := Client.performance_of_zeroWeights hagrees
  exact ⟨hsame, hexists (List.cons_ne_nil _ _) (by decide) (by decide)⟩

/-- The change of finite prices can be infinite, and no weight keeps it from the return. -/
theorem pairMarket_overflow :
    (∀ column ∈ (pairMarket 1e-200 1e200).prices.columns ++ (pairMarket 1 1).prices.columns,
      ∀ x ∈ column.2, x.isFinite = true) ∧
    (pairHistory.map (·.1)).Pairwise (· < ·) ∧
    (∀ e ∈ pairHistory, ∀ w ∈ e.2.weights, w.2.isFinite = true) ∧
    (∀ step ∈ steps pairHistory, ∀ e ∈ step.1.2.weights, ∃ x x',
      (pairMarket 1e-200 1e200).client.changeAt step.2.1 e.1 = .ok x ∧
      (pairMarket 1 1).client.changeAt step.2.1 e.1 = .ok x' ∧
      (Quantity.eq e.2 Quantity.zero = false → x = x')) ∧
    (pairMarket 1e-200 1e200).client.performance (pairHistory.map fun (t, a) ↦ (some t, a)) =
      .ok ⟨[(⟨2⟩, 0.0 / 0.0)]⟩ ∧
    (pairMarket 1 1).client.performance (pairHistory.map fun (t, a) ↦ (some t, a)) =
      .ok ⟨[(⟨2⟩, 1)]⟩ ∧
    (0.0 / 0.0 : Float) ≠ 1 := by
  have hinfinite : Quantity.isMissing (Quantity.change (1e-200 : Float) 1e200) = false := by
    decide +kernel
  have hnone : Quantity.isMissing (Quantity.change (1 : Float) 1) = false := by decide +kernel
  refine ⟨by decide +kernel, by decide, by decide +kernel, ?_, ?_, ?_, by decide +kernel⟩
  · refine forall_pairHistory (p := fun t asset weight ↦ ∃ x x',
      (pairMarket 1e-200 1e200).client.changeAt t asset = .ok x ∧
      (pairMarket 1 1).client.changeAt t asset = .ok x' ∧
      (Quantity.eq weight Quantity.zero = false → x = x')) ?_ ?_
    · exact ⟨_, _, (pairMarket_changeAt hinfinite).1, (pairMarket_changeAt hnone).1, fun _ ↦ rfl⟩
    · exact ⟨_, _, (pairMarket_changeAt hinfinite).2, (pairMarket_changeAt hnone).2,
        fun hzero ↦ absurd hzero (by decide)⟩
  · rw [← (pairMarket_holds hinfinite).cachedClient_eq]
    decide +kernel
  · rw [← (pairMarket_holds hnone).cachedClient_eq]
    decide +kernel

end ScorePortfolio

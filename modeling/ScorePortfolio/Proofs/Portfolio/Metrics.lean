import ScorePortfolio.Portfolio.Metrics
import ScorePortfolio.Proofs.Traversal

/-!
# What it takes for figures

Fewer than two returns have no figures.  Others have them unless the ratio of Sharpe, the annual
return or the root of the periods cannot be computed; the total return has an annual one unless it
is the loss of everything.
-/

namespace ScorePortfolio.Metrics

variable {α : Type} [Quantity α] [Elementary α] {returns : List α} {periods : Int}

/-- Metrics are computed of at least two returns, and fail exactly if a ratio, the annual growth or
the root of the periods does. -/
theorem ofReturns_eq_ok {metrics : Option (Metrics α)} :
    ofReturns returns periods = .ok metrics ↔
      (returns.length < 2 ∧ metrics = none) ∨
      (¬ returns.length < 2 ∧ ∃ sharpe annualized root, sharpe? returns periods = .ok sharpe ∧
        annualized? (ScorePortfolio.totalReturn returns) returns.length periods = .ok annualized ∧
        rootPeriods periods = .ok root ∧
        metrics = some {
          totalReturn := Quantity.present? (ScorePortfolio.totalReturn returns)
          annualizedReturn := annualized.bind Quantity.present?
          meanReturn := mean? returns
          volatility := (deviation? returns).map (· * root)
          sharpeRatio := sharpe
          maxDrawdown := maxDrawdown? returns
          winRate := some (share (Quantity.lt Quantity.zero ·) returns)
          lossRate := some (share (Quantity.lt · Quantity.zero) returns) }) := by
  rw [ofReturns]
  split
  · next hfew =>
    rw [pure_eq_ok, eq_comm, or_iff_left fun h ↦ h.1 hfew]
    exact (and_iff_right hfew).symm
  · next hfew =>
    simp only [bind_eq_ok, pure_eq_ok, hfew, false_and, not_false_eq_true, true_and, false_or]
    constructor
    · rintro ⟨sharpe, hsharpe, annualized, hannualized, root, hroot, rfl⟩
      exact ⟨sharpe, annualized, root, hsharpe, hannualized, hroot, rfl⟩
    · rintro ⟨sharpe, annualized, root, hsharpe, hannualized, hroot, rfl⟩
      exact ⟨sharpe, hsharpe, annualized, hannualized, root, hroot, rfl⟩

/-- The total return stands among the figures, if there are any. -/
theorem lookup_totalReturn {metrics : Option (Metrics α)}
    (h : ofReturns returns periods = .ok metrics) :
    (metrics.elim [] entries).lookup "total_return" = if returns.length < 2 then none
      else some (Quantity.present? (ScorePortfolio.totalReturn returns)) := by
  rcases ofReturns_eq_ok.mp h with ⟨hfew, rfl⟩ | ⟨hfew, _, _, _, -, -, -, rfl⟩
  · rw [if_pos hfew]
    rfl
  · rw [if_neg hfew]
    rfl

/-- So does the deepest decline. -/
theorem lookup_maxDrawdown {metrics : Option (Metrics α)}
    (h : ofReturns returns periods = .ok metrics) :
    (metrics.elim [] entries).lookup "max_drawdown" =
      if returns.length < 2 then none else some (maxDrawdown? returns) := by
  rcases ofReturns_eq_ok.mp h with ⟨hfew, rfl⟩ | ⟨hfew, _, _, _, -, -, -, rfl⟩
  · rw [if_pos hfew]
    rfl
  · rw [if_neg hfew]
    rfl

/-! ## When there are figures -/

/-- The periods of a year have a root exactly if they fit a machine word, signed or not. -/
theorem exists_rootPeriods : (∃ root : α, rootPeriods periods = .ok root) ↔
    -9223372036854775808 ≤ periods ∧ periods < 18446744073709551616 := by
  rw [rootPeriods]
  split
  · next hout => exact iff_of_false nofun (by omega)
  · next hword => exact iff_of_true ⟨_, rfl⟩ (by omega)

/-- Where the periods have a root, the ratio of Sharpe can be computed. -/
theorem exists_sharpe {root : α} (h : rootPeriods periods = .ok root) :
    ∃ sharpe, sharpe? returns periods = .ok sharpe := by
  rw [sharpe?]
  split
  · split
    · rw [h]
      exact ⟨_, rfl⟩
    · exact ⟨_, rfl⟩
  · exact ⟨_, rfl⟩

/-- An annual return can be computed if there is a year and either everything is lost, or the span
of the returns is not nothing and the growth has a power. -/
theorem exists_annualized {total : α} {count : ℕ} :
    (∃ annualized, annualized? total count periods = .ok annualized) ↔ periods ≠ 0 ∧
      (Quantity.le total (Quantity.ofInt (-1)) = true ∨
        Quantity.eq (Quantity.ofInt count / Quantity.ofInt periods : α) Quantity.zero = false ∧
        Elementary.power (Quantity.one + total)
          (Quantity.one / (Quantity.ofInt count / Quantity.ofInt periods)) ≠ none) := by
  rw [annualized?]
  split
  · next hzero => simp [hzero]
  split
  · next hne hloss => simp [hne, hloss]
  split
  · next hne hloss hyears => simp [hne, hloss, hyears]
  · next hne hloss hyears => split <;> simp [*]

/-- Beyond that, figures need no more than the root of the periods. -/
theorem exists_ofReturns : (∃ metrics, ofReturns returns periods = .ok metrics) ↔
    returns.length < 2 ∨ (∃ root : α, rootPeriods periods = .ok root) ∧
      ∃ annualized, annualized? (ScorePortfolio.totalReturn returns) returns.length periods =
        .ok annualized := by
  simp only [ofReturns_eq_ok]
  constructor
  · rintro ⟨_, ⟨hfew, -⟩ | ⟨-, _, annualized, root, -, hannualized, hroot, -⟩⟩
    · exact .inl hfew
    · exact .inr ⟨⟨root, hroot⟩, annualized, hannualized⟩
  · intro h
    by_cases hfew : returns.length < 2
    · exact ⟨none, .inl ⟨hfew, rfl⟩⟩
    · obtain ⟨⟨root, hroot⟩, annualized, hannualized⟩ := h.resolve_left hfew
      obtain ⟨sharpe, hsharpe⟩ : ∃ sharpe, sharpe? returns periods = .ok sharpe :=
        exists_sharpe hroot
      exact ⟨_, .inr ⟨hfew, sharpe, annualized, root, hsharpe, hannualized, hroot, rfl⟩⟩

/-- Unless the total is the loss of everything, it has an annual figure where it has any. -/
theorem ne_none_of_annualized? {total : α} {count : ℕ} {annualized : Option α}
    (h : annualized? total count periods = .ok annualized)
    (hloss : Quantity.le total (Quantity.ofInt (-1)) = false) : annualized ≠ none := by
  rw [annualized?] at h
  split at h
  · cases h
  rw [if_neg (Bool.eq_false_iff.mp hloss)] at h
  split at h
  · cases h
  split at h
  · obtain rfl := Except.ok.inj h
    exact Option.some_ne_none _
  · cases h

end ScorePortfolio.Metrics

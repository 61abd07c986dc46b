import ScorePortfolio.Proofs.Evaluation.Failure
import ScorePortfolio.Proofs.Portfolio.ZeroWeights

/-!
# Daily returns

A return pairs the weights of one moment with the changes at the next.  So a replay owes a change at
each moment for every asset that was held since the moment before, and the assets held at the moment
itself do not matter.  It asks for what it owes moment by moment, and within a moment in the order
of the weights; if all of it is there, the returns are the sums of the products, and if not, the
first change that is missing decides, and nothing comes out.
-/

namespace ScorePortfolio

variable {α : Type}

/-! ## Moments -/

theorem exists_map_some {moments : List (Option Instant)} (h : none ∉ moments) :
    ∃ ts : List Instant, moments = ts.map some := by
  induction moments with
  | nil => exact ⟨[], rfl⟩
  | cons t moments ih =>
    cases t with
    | none => exact absurd List.mem_cons_self h
    | some t =>
      obtain ⟨ts, rfl⟩ := ih (mt (List.mem_cons_of_mem _) h)
      exact ⟨t :: ts, rfl⟩

/-- Moments ascend if none is missing and each is after the one before. -/
theorem exists_ascending_iff {moments : List (Option Instant)} :
    (∃ ts : List Instant, moments = ts.map some ∧ ts.Pairwise (· < ·)) ↔
      none ∉ moments ∧ moments.Pairwise (· < ·) := by
  constructor
  · rintro ⟨ts, rfl, hts⟩
    refine ⟨by simp, List.pairwise_map.mpr ?_⟩
    simpa only [Option.some_lt_some] using hts
  · rintro ⟨hpresent, hlt⟩
    obtain ⟨ts, rfl⟩ := exists_map_some hpresent
    rw [List.pairwise_map] at hlt
    refine ⟨ts, rfl, ?_⟩
    simpa only [Option.some_lt_some] using hlt

/-- Moments are refused if there are none, and otherwise if one is missing or they do not ascend. -/
theorem replayMoments_eq_error {moments : List (Option Instant)} {e : ReplayError} :
    replayMoments moments = .error e ↔ moments = [] ∧ e = .noMoments ∨
      moments ≠ [] ∧ (none ∈ moments ∨ ¬ moments.Pairwise (· < ·)) ∧ e = .notAscending := by
  rcases eq_or_ne moments [] with rfl | hne
  · simp [replayMoments, eq_comm]
  by_cases hgood : none ∉ moments ∧ moments.Pairwise (· < ·)
  · obtain ⟨ts, hts, hlt⟩ := exists_ascending_iff.mpr hgood
    have hok : replayMoments moments = .ok ts :=
      replayMoments_eq_ok.mpr ⟨hts, fun h ↦ hne (by rw [hts, h, List.map_nil]), hlt⟩
    rw [hok]
    refine iff_of_false (fun h ↦ by cases h) ?_
    rintro (⟨h, -⟩ | ⟨-, h | h, -⟩)
    · exact hne h
    · exact hgood.1 h
    · exact h hgood.2
  · have hrefused : replayMoments moments = .error .notAscending := by
      obtain ⟨t, rest, rfl⟩ := List.exists_cons_of_ne_nil hne
      cases hfound : Series.presentIndex? (t :: rest) with
      | none => simp only [replayMoments, hfound]
      | some ts =>
        have hnot : ¬ Series.increasing ts = true := fun h ↦ hgood <| exists_ascending_iff.mp
          ⟨ts, Series.presentIndex?_eq_some.mp hfound, Series.increasing_iff.mp h⟩
        simp only [replayMoments, hfound]
        rw [if_neg hnot]
    rw [hrefused]
    constructor
    · rintro h
      obtain rfl := Except.error.inj h
      exact .inr ⟨hne, by tauto, rfl⟩
    · rintro (⟨h, -⟩ | ⟨-, -, rfl⟩)
      · exact absurd h hne
      · rfl

variable [Quantity α]

namespace Client

variable {c : Client α} {t : Instant}

/-! ## Changes -/

/-- Asked for the changes of an asset as of a moment, the client has one at exactly the moment. -/
def ChangesBy (c : Client α) (t : Instant) (asset : Asset) (x : α) : Prop :=
  ∃ s, c.query asset (some t) (some changeField) = .ok s ∧ s.get? (some t) = some x

/-- Why there is no change of an asset at a moment. -/
inductive Refuses (c : Client α) (t : Instant) (asset : Asset) : EvaluationError → Prop where
  /-- The client does not know the asset, which it says itself. -/
  | unknown {symbol : String} :
    c.query asset (some t) (some changeField) = .error (.assetNotFound symbol) →
      Refuses c t asset (.assetNotFound symbol)
  /-- The query fails in another way. -/
  | failed {cause : ClientError} :
    c.query asset (some t) (some changeField) = .error cause →
      (∀ symbol, cause ≠ .assetNotFound symbol) →
      Refuses c t asset (.request ⟨asset, some t, some changeField⟩ cause)
  /-- The series has no point at the moment, whatever points it has before. -/
  | absent {s : Series α} :
    c.query asset (some t) (some changeField) = .ok s → s.get? (some t) = none →
      Refuses c t asset (.request ⟨asset, some t, some changeField⟩ (.noChange (some t)))

omit [Quantity α] in
/-- The change of an asset at a moment is the one the client dates there. -/
theorem changeAt_eq_ok {asset : Asset} {x : α} :
    c.changeAt t asset = .ok x ↔ c.ChangesBy t asset x := by
  simp only [changeAt, bind_eq_ok, Request.send_eq_ok]
  refine exists_congr fun s ↦ and_congr_right fun _ ↦ ?_
  cases s.get? (some t) with
  | none => exact iff_of_false throw_ne_ok (Option.some_ne_none x).symm
  | some y => rw [pure_eq_ok, Option.some.injEq]

omit [Quantity α] in
/-- A change fails where the client refuses the query or dates no change at the moment. -/
theorem changeAt_eq_error {asset : Asset} {e : EvaluationError} :
    c.changeAt t asset = .error e ↔ c.Refuses t asset e := by
  simp only [changeAt, bind_eq_error, Request.send_eq_error, Request.send_eq_ok]
  constructor
  · rintro ((⟨symbol, hq, rfl⟩ | ⟨cause, hq, hcause, rfl⟩) | ⟨s, hq, h⟩)
    · exact .unknown hq
    · exact .failed hq hcause
    · cases hget : s.get? (some t) with
      | none =>
        rw [hget] at h
        obtain rfl := throw_eq_error.mp h
        exact .absent hq hget
      | some x =>
        rw [hget] at h
        exact absurd h pure_ne_error
  · rintro (hq | ⟨hq, hcause⟩ | ⟨hq, hget⟩)
    · exact .inl (.inl ⟨_, hq, rfl⟩)
    · exact .inl (.inr ⟨_, hq, hcause, rfl⟩)
    · exact .inr ⟨_, hq, by rw [hget]; rfl⟩

/-! ## The return of one moment -/

/-- The weights earn a return: the sum from left to right of their products with the changes. -/
def Earns (c : Client α) (t : Instant) (weights : List (Asset × α)) (r : α) : Prop :=
  ∃ changes, List.Forall₂ (fun e x ↦ c.ChangesBy t e.1 x) weights changes ∧
    r = Quantity.sum (List.zipWith (fun e x ↦ e.2 * x) weights changes)

theorem portfolioReturn_eq_ok_iff {weights : List (Asset × α)} {r : α} :
    c.portfolioReturn t weights = .ok r ↔ c.Earns t weights r := by
  simp only [portfolioReturn_eq, map_eq_ok, mapM_eq_ok, changeAt_eq_ok]
  exact exists_congr fun changes ↦ and_congr_right fun _ ↦ eq_comm

end Client

/-! ## The returns of a history -/

/-- The changes that a history needs, in the order in which it asks for them: at each moment those
of the assets held since the moment before. -/
def dues (history : History α) : List (Instant × Asset) :=
  (steps history).flatMap fun (before, now) ↦ before.2.weights.map fun e ↦ (now.1, e.1)

namespace Client

variable {c : Client α} {history : History α}

omit [Quantity α] in
/-- What is due moment by moment is due in one go. -/
theorem mapM_dues : (dues history).mapM (fun d ↦ c.changeAt d.1 d.2) =
    ((steps history).mapM fun step : (Instant × Allocation α) × (Instant × Allocation α) ↦
      step.1.2.weights.mapM fun e ↦ c.changeAt step.2.1 e.1).map List.flatten := by
  rw [dues, mapM_flatMap]
  simp only [List.mapM_map]
  rfl

/-- Moments that an index can hold pass, so there are returns unless one of them fails. -/
theorem returns_of_inRange (hrange : ∀ step ∈ steps history, step.2.1.InRange) :
    c.returns history = ((steps history).mapM fun step ↦
      ((c.portfolioReturn step.2.1 step.1.2.weights).map fun x ↦ (step.2.1, x)).mapError
        ReplayError.evaluation).map Series.mk := by
  rw [returns]
  cases hpoints : (steps history).mapM fun step ↦
      ((c.portfolioReturn step.2.1 step.1.2.weights).map fun x ↦ (step.2.1, x)).mapError
        ReplayError.evaluation with
  | error e => rfl
  | ok points =>
    have hfit : ∀ p ∈ points, p.1.InRange := by
      intro p hp
      obtain ⟨step, hstep, hp⟩ := (mem_of_mapM_eq_ok hpoints).mp hp
      exact (keyed_eq_ok.mp hp).1 ▸ hrange step hstep
    rw [ok_bind, mapM_fit_eq_ok.mpr ⟨hfit, rfl⟩]
    rfl

/-- Returns fail with the first change that is due and fails. -/
theorem returns_eq_error (hrange : ∀ step ∈ steps history, step.2.1.InRange) {e : ReplayError} :
    c.returns history = .error e ↔ ∃ cause,
      (dues history).mapM (fun d ↦ c.changeAt d.1 d.2) = .error cause ∧ e = .evaluation cause := by
  have hearned {t : Instant} {weights : List (Asset × α)} :
      (∃ x, c.portfolioReturn t weights = .ok x) ↔
        ∃ changes, (weights.mapM fun e ↦ c.changeAt t e.1) = .ok changes := by
    simp [portfolioReturn_eq, map_eq_ok]
  rw [returns_of_inRange hrange, mapM_dues]
  simp only [map_eq_error, mapM_eq_error_iff (l := steps history), keyed_eq_error,
    exists_keyed_eq_ok, hearned]
  simp only [portfolioReturn_eq, map_eq_error]
  constructor
  · rintro ⟨done, step, rest, hsteps, hdone, cause, hcause, rfl⟩
    exact ⟨cause, ⟨done, step, rest, hsteps, hdone, hcause⟩, rfl⟩
  · rintro ⟨cause, ⟨done, step, rest, hsteps, hdone, hcause⟩, rfl⟩
    exact ⟨done, step, rest, hsteps, hdone, cause, hcause, rfl⟩

/-- There are returns exactly if every change that is due is there. -/
theorem exists_returns_iff (hrange : ∀ step ∈ steps history, step.2.1.InRange) :
    (∃ r, c.returns history = .ok r) ↔ ∀ d ∈ dues history, ∃ x, c.ChangesBy d.1 d.2 x := by
  have hdues : (∃ changes, (dues history).mapM (fun d ↦ c.changeAt d.1 d.2) = .ok changes) ↔
      ∀ d ∈ dues history, ∃ x, c.ChangesBy d.1 d.2 x := by
    simp only [exists_mapM_eq_ok, changeAt_eq_ok]
  rw [← hdues, exists_eq_ok_iff, exists_eq_ok_iff]
  simp only [ne_eq, returns_eq_error hrange]
  constructor
  · intro h cause hcause
    exact h _ ⟨cause, hcause, rfl⟩
  · rintro h e ⟨cause, hcause, -⟩
    exact h cause hcause

/-- Whatever goes wrong with the returns, it is not the moments themselves. -/
theorem of_returns_eq_error {e : ReplayError} (h : c.returns history = .error e) :
    (∃ cause, e = .evaluation cause) ∨ ∃ cause, e = .range cause := by
  rcases bind_eq_error.mp h with h | ⟨points, -, h⟩
  · obtain ⟨-, step, -, -, -, h⟩ := mapM_eq_error h
    obtain ⟨cause, -, rfl⟩ := keyed_eq_error.mp h
    exact .inl ⟨cause, rfl⟩
  · rcases bind_eq_error.mp h with h | ⟨fitted, -, h⟩
    · obtain ⟨-, p, -, -, -, h⟩ := mapM_eq_error h
      obtain ⟨cause, -, rfl⟩ := mapError_eq_error.mp h
      exact .inr ⟨cause, rfl⟩
    · exact absurd h pure_ne_error

/-- Over a history in increasing order of its moments the performance is the returns. -/
theorem performance_of_ascending (hne : history ≠ [])
    (hlt : (history.map (·.1)).Pairwise (· < ·)) :
    c.performance (history.map fun (t, a) ↦ (some t, a)) = c.returns history := by
  have hmoments : replayMoments ((history.map (·.1)).map some) = .ok (history.map (·.1)) :=
    replayMoments_eq_ok.mpr ⟨rfl, mt List.map_eq_nil_iff.mp hne, hlt⟩
  rw [performance_eq, hmoments, ok_bind]

/-- Without moments, or with moments out of order, the performance fails as the replay of the
moments does. -/
theorem performance_eq_momentError {allocations : List (Option Instant × Allocation α)}
    {e : ReplayError} (he : e = .noMoments ∨ e = .notAscending) :
    c.performance allocations = .error e ↔ replayMoments (allocations.map (·.1)) = .error e := by
  rw [performance, bind_eq_error]
  refine or_iff_left ?_
  rintro ⟨ts, -, h⟩
  rcases of_returns_eq_error h with ⟨cause, rfl⟩ | ⟨cause, rfl⟩ <;> simp at he

/-- The returns over allocations by moments.  There are none exactly if the moments are missing or
do not ascend; otherwise, on days that an index can hold, there are returns exactly if every change
that is due is there.  Then they lie on all days but the first, and each is the sum, from left to
right and in the order of the symbols, of the weights of the day before with the changes of the day;
and if a change is not there, the first one that is not there says why, and there is no return. -/
theorem performance_outcome (c : Client α) (allocations : List (Option Instant × Allocation α)) :
    (c.performance allocations = .error .noMoments ↔ allocations = []) ∧
    (c.performance allocations = .error .notAscending ↔ allocations ≠ [] ∧
      (none ∈ allocations.map (·.1) ∨ ¬ (allocations.map (·.1)).Pairwise (· < ·))) ∧
    (∀ history : History α, allocations = history.map (fun (t, a) ↦ (some t, a)) →
      history ≠ [] → (history.map (·.1)).Pairwise (· < ·) →
      (∀ step ∈ steps history, step.2.1.InRange) →
      ((∃ r, c.performance allocations = .ok r) ↔
        ∀ d ∈ dues history, ∃ x, c.ChangesBy d.1 d.2 x) ∧
      (∀ r, c.performance allocations = .ok r → r.index = (history.map (·.1)).tail ∧
        List.Forall₂ (fun step p ↦ c.Earns step.2.1 step.1.2.weights p.2)
          (steps history) r.points) ∧
      (∀ e, c.performance allocations = .error e ↔ ∃ done d rest cause,
        dues history = done ++ d :: rest ∧
        (∀ earlier ∈ done, ∃ x, c.ChangesBy earlier.1 earlier.2 x) ∧
        c.Refuses d.1 d.2 cause ∧ e = .evaluation cause)) ∧
    (∀ t (weights : List (Asset × α)), (Allocation.ofWeights t weights).weights.Perm weights ∧
      (Allocation.ofWeights t weights).weights.Pairwise fun e e' ↦ e.1.symbol ≤ e'.1.symbol) := by
  refine ⟨?_, ?_, ?_, fun t weights ↦ ⟨Asset.sortEntries_perm weights, ?_⟩⟩
  · rw [performance_eq_momentError (.inl rfl), replayMoments_eq_error]
    simp
  · rw [performance_eq_momentError (.inr rfl), replayMoments_eq_error]
    simp
  · rintro history rfl hne hlt hrange
    rw [performance_of_ascending hne hlt]
    refine ⟨exists_returns_iff hrange, fun r hr ↦ ⟨index_returns hr, ?_⟩, fun e ↦ ?_⟩
    · exact (returns_eq_ok.mp hr).1.imp fun _ _ hp ↦ portfolioReturn_eq_ok_iff.mp hp.2
    · rw [returns_eq_error hrange]
      simp only [mapM_eq_error_iff, changeAt_eq_ok, changeAt_eq_error]
      constructor
      · rintro ⟨cause, ⟨done, d, rest, hdues, hdone, hd⟩, rfl⟩
        exact ⟨done, d, rest, cause, hdues, hdone, hd, rfl⟩
      · rintro ⟨done, d, rest, cause, hdues, hdone, hd, rfl⟩
        exact ⟨cause, ⟨done, d, rest, hdues, hdone, hd⟩, rfl⟩
  · exact (Asset.pairwise_sortEntries weights).imp of_decide_eq_true

end Client

/-! ## A client that knows one asset -/

/-- A client that knows the changes of one asset on two days. -/
def twoChanges : Client Rat where
  assets := [("A", ⟨"A"⟩)]
  asset symbol := .ok ⟨symbol⟩
  query asset t _ :=
    if asset = ⟨"A"⟩ then .ok (Series.upTo ⟨[(⟨2⟩, 1), (⟨4⟩, 1 / 2)]⟩ t)
    else .error (.assetNotFound asset.symbol)

/-- From the second day on there is an asset that the client does not know. -/
def growingHistory : History Rat := [
  (⟨1⟩, ⟨some ⟨1⟩, [(⟨"A"⟩, 1)]⟩),
  (⟨2⟩, ⟨some ⟨2⟩, [(⟨"A"⟩, 1 / 2), (⟨"B"⟩, 1 / 2)]⟩),
  (⟨3⟩, ⟨some ⟨3⟩, []⟩)]

/-- The new asset is not asked for on the day it is bought, and on the next day only after the one
before it in the order, whose change two days ago is of no use. -/
theorem twoChanges_performance :
    (∃ r, twoChanges.performance ((growingHistory.take 2).map fun (t, a) ↦ (some t, a)) = .ok r) ∧
    twoChanges.performance (growingHistory.map fun (t, a) ↦ (some t, a)) = .error
      (.evaluation (.request ⟨⟨"A"⟩, some ⟨3⟩, some changeField⟩ (.noChange (some ⟨3⟩)))) := by
  have hsecond : twoChanges.ChangesBy ⟨2⟩ ⟨"A"⟩ 1 := ⟨⟨[(⟨2⟩, 1)]⟩, by decide, rfl⟩
  have hthird : twoChanges.Refuses ⟨3⟩ ⟨"A"⟩
      (.request ⟨⟨"A"⟩, some ⟨3⟩, some changeField⟩ (.noChange (some ⟨3⟩))) :=
    .absent (s := ⟨[(⟨2⟩, 1)]⟩) (by decide) rfl
  obtain ⟨-, -, hfirst, -⟩ := Client.performance_outcome twoChanges
    ((growingHistory.take 2).map fun (t, a) ↦ (some t, a))
  obtain ⟨-, -, hwhole, -⟩ := Client.performance_outcome twoChanges
    (growingHistory.map fun (t, a) ↦ (some t, a))
  constructor
  · refine (hfirst _ rfl (List.cons_ne_nil _ _) (by decide) (by decide)).1.mpr ?_
    exact List.forall_mem_singleton.mpr ⟨1, hsecond⟩
  · refine ((hwhole _ rfl (List.cons_ne_nil _ _) (by decide) (by decide)).2.2 _).mpr ?_
    exact ⟨[(⟨2⟩, ⟨"A"⟩)], (⟨3⟩, ⟨"A"⟩), [(⟨3⟩, ⟨"B"⟩)], _, rfl,
      List.forall_mem_singleton.mpr ⟨1, hsecond⟩, hthird, rfl⟩

/-- Nothing is held over the last days of the year 9999. -/
def farHistory : History Rat := [
  (⟨253402128000000000000⟩, ⟨some ⟨253402128000000000000⟩, []⟩),
  (⟨253402214400000000000⟩, ⟨some ⟨253402214400000000000⟩, []⟩)]

/-- Although nothing is due, there are no returns over days that no index can hold. -/
theorem farHistory_performance :
    farHistory ≠ [] ∧ (farHistory.map (·.1)).Pairwise (· < ·) ∧ dues farHistory = [] ∧
      twoChanges.performance (farHistory.map fun (t, a) ↦ (some t, a)) =
        .error (.range ⟨⟨253402214400000000000⟩⟩) := by
  refine ⟨List.cons_ne_nil _ _, by decide, rfl, ?_⟩
  decide

end ScorePortfolio

import ScorePortfolio.Portfolio.Replay
import ScorePortfolio.Proofs.Portfolio.NoLookahead
import Mathlib

/-!
# Replays

What it takes for a replay to succeed, day by day, and why a replay up to a day needs nothing later:
over the market up to that day its allocations and returns are those of the whole replay, up to the
day.
-/

namespace ScorePortfolio

variable {α : Type}

/-! ## Days -/

/-- Moments are replayed exactly if there are some, none is missing, and they strictly increase. -/
theorem replayMoments_eq_ok {moments : List (Option Instant)} {ts : List Instant} :
    replayMoments moments = .ok ts ↔ moments = ts.map some ∧ ts ≠ [] ∧ ts.Pairwise (· < ·) := by
  rw [← Series.presentIndex?_eq_some, ← Series.increasing_iff]
  cases hfound : Series.presentIndex? moments with
  | none => cases moments <;> simp [replayMoments, hfound]
  | some found =>
    have hempty : moments = [] ↔ found = [] := by
      rw [Series.presentIndex?_eq_some.mp hfound, List.map_eq_nil_iff]
    cases moments with
    | nil =>
      obtain rfl := hempty.mp rfl
      constructor
      · intro h
        cases h
      · rintro ⟨h, hne, -⟩
        exact absurd (Option.some.inj h).symm hne
    | cons t moments =>
      have hne : found ≠ [] := fun h ↦ List.cons_ne_nil _ _ (hempty.mpr h)
      simp only [replayMoments, hfound, Option.some.injEq]
      constructor
      · intro h
        split at h
        · next hinc =>
          obtain rfl := Except.ok.inj h
          exact ⟨rfl, hne, hinc⟩
        · cases h
      · rintro ⟨rfl, -, hinc⟩
        rw [if_pos hinc]

/-- Of increasing moments, those up to a place are not after the moment there. -/
theorem le_of_mem_take {ts : List Instant} (h : ts.Pairwise (· < ·)) {k : ℕ} {t u : Instant}
    (ht : ts[k]? = some t) (hu : u ∈ ts.take (k + 1)) : u ≤ t := by
  obtain ⟨hk, rfl⟩ := List.getElem?_eq_some_iff.mp ht
  obtain ⟨i, hi, rfl⟩ := List.mem_take_iff_getElem.mp hu
  have hle : i ≤ k := Nat.le_of_lt_succ (Nat.lt_of_lt_of_le hi (Nat.min_le_left _ _))
  rcases Nat.lt_or_eq_of_le hle with hlt | rfl
  · exact Instant.le_of_lt (List.pairwise_iff_getElem.mp h i k _ hk hlt)
  · exact Instant.le_refl _

variable [Quantity α] {c c' : Client α} {g : Graph} {settings : Settings}

/-! ## Allocations and returns -/

/-- A history holds the allocation at each of its increasing moments. -/
theorem Graph.history_eq_ok {moments : List (Option Instant)} {history : History α} :
    g.history c settings moments = .ok history ↔
      moments = history.map (some ·.1) ∧ history ≠ [] ∧ (history.map (·.1)).Pairwise (· < ·) ∧
        ∀ e ∈ history, g.allocate c settings (some e.1) = .ok e.2 := by
  have hdays {ts : List Instant} :
      List.Forall₂ (fun t (e : Instant × Allocation α) ↦
          e.1 = t ∧ g.allocate c settings (some t) = .ok e.2) ts history ↔
        ts = history.map (·.1) ∧ ∀ e ∈ history, g.allocate c settings (some e.1) = .ok e.2 := by
    induction history generalizing ts with
    | nil => simp
    | cons e history ih =>
      cases ts with
      | nil => simp
      | cons t ts =>
        simp only [List.forall₂_cons, ih, List.map_cons, List.cons.injEq, List.forall_mem_cons]
        constructor
        · rintro ⟨⟨rfl, he⟩, hts, hrest⟩
          exact ⟨⟨rfl, hts⟩, he, hrest⟩
        · rintro ⟨⟨rfl, hts⟩, he, hrest⟩
          exact ⟨⟨rfl, he⟩, hts, hrest⟩
  simp only [Graph.history, bind_eq_ok, replayMoments_eq_ok, mapM_eq_ok, keyed_eq_ok, hdays]
  constructor
  · rintro ⟨_, ⟨rfl, hne, hlt⟩, rfl, hallocate⟩
    exact ⟨List.map_map, by simpa using hne, hlt, hallocate⟩
  · rintro ⟨rfl, hne, hlt, hallocate⟩
    exact ⟨_, ⟨List.map_map.symm, by simpa using hne, hlt⟩, rfl, hallocate⟩

namespace Client

omit [Quantity α] in
/-- Points pass as they are if an index can hold their moments. -/
theorem mapM_fit_eq_ok {points fitted : List (Instant × α)} :
    (points.mapM fun (t, x) ↦ (t.fit.map fun t ↦ (t, x)).mapError ReplayError.range) = .ok fitted ↔
      (∀ p ∈ points, p.1.InRange) ∧ points = fitted := by
  refine mapM_eq_ok_of_check fun p q ↦ ?_
  simp only [mapError_eq_ok, map_eq_ok, Instant.fit_eq_ok]
  constructor
  · rintro ⟨_, ⟨hp, rfl⟩, rfl⟩
    exact ⟨hp, rfl⟩
  · rintro ⟨hp, rfl⟩
    exact ⟨p.1, ⟨hp, rfl⟩, rfl⟩

/-- The return of a portfolio is the sum of the products of its weights and their changes, if these
are all there. -/
theorem portfolioReturn_eq (c : Client α) (t : Instant) (weights : List (Asset × α)) :
    c.portfolioReturn t weights = (weights.mapM fun e ↦ c.changeAt t e.1).map fun changes ↦
      Quantity.sum (List.zipWith (fun e x ↦ e.2 * x) weights changes) := by
  suffices hfold : ∀ sum, weights.foldlM (fun sum e ↦
      (c.changeAt t e.1).map fun change ↦ sum + e.2 * change) sum =
        (weights.mapM fun e ↦ c.changeAt t e.1).map fun changes ↦
          (List.zipWith (fun e x ↦ e.2 * x) weights changes).foldl (· + ·) sum from hfold _
  induction weights with
  | nil => exact fun sum ↦ rfl
  | cons e weights ih =>
    intro sum
    rw [List.foldlM_cons, List.mapM_cons]
    cases c.changeAt t e.1 with
    | error e => rfl
    | ok x =>
      refine (ih _).trans ?_
      cases weights.mapM fun e ↦ c.changeAt t e.1 <;> rfl

/-- Each return is earned from the day before by the weights of that day. -/
theorem returns_eq_ok {history : History α} {r : Series α} :
    c.returns history = .ok r ↔
      List.Forall₂ (fun step p ↦ p.1 = step.2.1 ∧
        c.portfolioReturn step.2.1 step.1.2.weights = .ok p.2) (steps history) r.points ∧
      ∀ p ∈ r.points, p.1.InRange := by
  simp only [returns, bind_eq_ok, pure_eq_ok, mapM_fit_eq_ok]
  simp only [mapM_eq_ok, keyed_eq_ok]
  constructor
  · rintro ⟨points, hpoints, _, ⟨hrange, rfl⟩, rfl⟩
    exact ⟨hpoints, hrange⟩
  · rintro ⟨hpoints, hrange⟩
    exact ⟨r.points, hpoints, r.points, ⟨hrange, rfl⟩, rfl⟩

/-- There are returns if there is one at each moment, and an index can hold the moments. -/
theorem exists_returns {history : History α} (hearned : ∀ step ∈ steps history, ∃ x,
      c.portfolioReturn step.2.1 step.1.2.weights = .ok x)
    (hrange : ∀ step ∈ steps history, step.2.1.InRange) : ∃ r, c.returns history = .ok r := by
  have hpoint : ∀ step ∈ steps history, ∃ p : Instant × α,
      (c.portfolioReturn step.2.1 step.1.2.weights).map (step.2.1, ·) = .ok p := by
    intro step hstep
    obtain ⟨x, hx⟩ := hearned step hstep
    exact ⟨(step.2.1, x), map_eq_ok.mpr ⟨x, hx, rfl⟩⟩
  obtain ⟨points, hpoints⟩ := exists_mapM_eq_ok.mpr hpoint
  refine ⟨⟨points⟩, returns_eq_ok.mpr ⟨(mapM_eq_ok.mp hpoints).imp fun step p hp ↦ ?_, ?_⟩⟩
  · obtain ⟨x, hx, rfl⟩ := map_eq_ok.mp hp
    exact ⟨rfl, hx⟩
  · intro p hp
    obtain ⟨step, hstep, hp⟩ := (mem_of_mapM_eq_ok hpoints).mp hp
    obtain ⟨x, -, rfl⟩ := map_eq_ok.mp hp
    exact hrange step hstep

/-- Returns depend on the portfolio returns of their steps alone. -/
theorem returns_congr {history : History α} (h : ∀ step ∈ steps history,
    c.portfolioReturn step.2.1 step.1.2.weights = c'.portfolioReturn step.2.1 step.1.2.weights) :
    c.returns history = c'.returns history := by
  rw [returns, returns, mapM_congr fun step hstep ↦ ?_]
  exact congrArg (fun earned ↦ (earned.map fun x ↦ (step.2.1, x)).mapError ReplayError.evaluation)
    (h step hstep)

/-- The returns over the allocations of a history, once its moments are checked. -/
theorem performance_eq (c : Client α) (history : History α) :
    c.performance (history.map fun (t, a) ↦ (some t, a)) =
      replayMoments ((history.map (·.1)).map some) >>= fun _ ↦ c.returns history := by
  have hmoments :
      (history.map fun (t, a) ↦ (some t, a)).map (·.1) = (history.map (·.1)).map some := by
    rw [List.map_map, List.map_map]
    rfl
  have hzip : (history.map (·.1)).zip ((history.map fun (t, a) ↦ (some t, a)).map (·.2)) =
      history := by
    rw [List.map_map]
    exact (List.zip_of_prod rfl rfl).symm
  rw [performance, hmoments]
  cases hts : replayMoments ((history.map (·.1)).map some) with
  | error e => rfl
  | ok ts =>
    obtain ⟨hts, -, -⟩ := replayMoments_eq_ok.mp hts
    obtain rfl := List.map_injective_iff.mpr (Option.some_injective _) hts
    rw [ok_bind, ok_bind, hzip]

/-- A performance is the returns of a history in increasing order. -/
theorem performance_eq_ok {history : History α} {r : Series α} :
    c.performance (history.map fun (t, a) ↦ (some t, a)) = .ok r ↔
      history ≠ [] ∧ (history.map (·.1)).Pairwise (· < ·) ∧ c.returns history = .ok r := by
  simp only [performance_eq, bind_eq_ok, replayMoments_eq_ok]
  constructor
  · rintro ⟨ts, ⟨hts, hne, hlt⟩, hr⟩
    obtain rfl := List.map_injective_iff.mpr (Option.some_injective _) hts
    exact ⟨by simpa using hne, hlt, hr⟩
  · rintro ⟨hne, hlt, hr⟩
    exact ⟨_, ⟨rfl, by simpa using hne, hlt⟩, hr⟩

end Client

/-! ## Clients that give the same answers -/

namespace Client.AnsweredBy

/-- An allocation is the same through a client that answers as the other does. -/
theorem allocate_eq_ok {t : Option Instant} (h : c.AnsweredBy c' t) (hassets : c.assets = c'.assets)
    {a : Allocation α} (ha : g.allocate c settings t = .ok a) :
    g.allocate c' settings t = .ok a := by
  obtain ⟨scores, hscores, ha⟩ := bind_eq_ok.mp ha
  obtain ⟨_, hpool, hscores⟩ := bind_eq_ok.mp hscores
  obtain ⟨found, hfound, hscores⟩ := bind_eq_ok.mp hscores
  have hsorted : c'.sortedAssets = c.sortedAssets := by
    rw [Client.sortedAssets, Client.sortedAssets, hassets]
  have hfound' : (Asset.sort c'.sortedAssets).mapM (fun asset ↦
      ((g.evaluate c' asset t).result.map fun s ↦ (asset, s)).mapError
        AllocationError.evaluation) = .ok found := by
    rw [hsorted, mapM_eq_ok]
    refine (mapM_eq_ok.mp hfound).imp fun asset e he ↦ ?_
    rwa [h.evaluate_eq (keyed_eq_ok.mp he).2]
  refine bind_eq_ok.mpr ⟨scores, ?_, ha⟩
  exact bind_eq_ok.mpr ⟨_, hsorted ▸ hpool, bind_eq_ok.mpr ⟨found, hfound', hscores⟩⟩

variable {t : Instant}

omit [Quantity α] in
theorem changeAt_eq_ok (h : c.AnsweredBy c' (some t)) {asset : Asset} {x : α}
    (hx : c.changeAt t asset = .ok x) : c'.changeAt t asset = .ok x := by
  obtain ⟨s, hs, hx⟩ := bind_eq_ok.mp hx
  exact bind_eq_ok.mpr ⟨s, Request.send_eq_ok.mpr (h _ _ s (Request.send_eq_ok.mp hs)), hx⟩

/-- A portfolio return is the same through a client that answers as the other does. -/
theorem portfolioReturn_eq_ok (h : c.AnsweredBy c' (some t)) {weights : List (Asset × α)} {x : α}
    (hx : c.portfolioReturn t weights = .ok x) : c'.portfolioReturn t weights = .ok x := by
  refine foldlM_eq_ok_of_imp (fun (asset, weight) _ sum sum' hsum ↦ ?_) hx
  obtain ⟨change, hchange, hsum⟩ := map_eq_ok.mp hsum
  exact map_eq_ok.mpr ⟨change, h.changeAt_eq_ok hchange, hsum⟩

end Client.AnsweredBy

/-! ## Replays up to a day -/

/-- Over the market up to a day, the replay up to the day has the allocations and the returns that
the whole replay has up to it. -/
theorem Graph.replay_upTo (g : Graph) {m : Market α} (hm : ∀ T ∈ m.tables, T.dates.Nodup)
    {settings : Settings} {ts : List Instant} {history : History α} {returns : Series α}
    (hhistory : g.history m.client settings (ts.map some) = .ok history)
    (hreturns : m.client.performance (history.map fun (t, a) ↦ (some t, a)) = .ok returns)
    {k : ℕ} {t : Instant} (hk : ts[k]? = some t) :
    g.history (m.upTo t).client settings ((ts.take (k + 1)).map some) =
        .ok (history.take (k + 1)) ∧
      (m.upTo t).client.performance ((history.take (k + 1)).map fun (t, a) ↦ (some t, a)) =
        .ok ⟨returns.points.take k⟩ := by
  obtain ⟨hmoments, hne, hlt, hallocate⟩ := Graph.history_eq_ok.mp hhistory
  obtain ⟨-, -, hreturns⟩ := Client.performance_eq_ok.mp hreturns
  obtain ⟨hearned, hrange⟩ := Client.returns_eq_ok.mp hreturns
  obtain rfl : ts = history.map (·.1) := by
    refine List.map_injective_iff.mpr (Option.some_injective _) ?_
    rw [hmoments, List.map_map]
    rfl
  -- whatever the first days ask for, they ask for as of a day that is not after `t`
  have hearlier {e : Instant × Allocation α} (he : e ∈ history.take (k + 1)) : e.1 ≤ t :=
    le_of_mem_take hlt hk (List.map_take ▸ List.mem_map_of_mem he)
  have hanswers {u : Instant} (hu : u ≤ t) : m.client.AnsweredBy (m.upTo t).client (some u) :=
    fun _ _ _ ↦ Market.query_upTo hm hu
  have hassets : m.client.assets = (m.upTo t).client.assets :=
    Market.assets_congr (m.labels_upTo t).symm
  have hne' : history.take (k + 1) ≠ [] := by simpa using hne
  have hlt' : ((history.take (k + 1)).map (·.1)).Pairwise (· < ·) := by
    rw [List.map_take]
    exact hlt.sublist (List.take_sublist _ _)
  constructor
  · refine Graph.history_eq_ok.mpr ⟨?_, hne', hlt', fun e he ↦ ?_⟩
    · rw [← List.map_take, List.map_map]
      rfl
    · exact (hanswers (hearlier he)).allocate_eq_ok hassets (hallocate e (List.mem_of_mem_take he))
  · have hlater : ∀ step ∈ steps (history.take (k + 1)), step.2.1 ≤ t := fun step hstep ↦
      hearlier (List.mem_of_mem_tail (List.of_mem_zip hstep).2)
    have htake := List.forall₂_take k hearned
    rw [← steps_take] at htake
    refine Client.performance_eq_ok.mpr ⟨hne', hlt', Client.returns_eq_ok.mpr ⟨?_, fun p hp ↦ ?_⟩⟩
    · refine ((List.forall₂_and_left _ _).mpr ⟨hlater, htake⟩).imp ?_
      rintro step p ⟨hle, hp, hearned⟩
      exact ⟨hp, (hanswers hle).portfolioReturn_eq_ok hearned⟩
    · exact hrange p (List.mem_of_mem_take hp)

/-! ## Three days of two assets -/

/-- The allocations of the crossover over three days. -/
def crossoverHistory : History Rat := [
  (⟨3⟩, ⟨some ⟨3⟩, [(⟨"A"⟩, 1), (⟨"B"⟩, 0)]⟩),
  (⟨4⟩, ⟨some ⟨4⟩, [(⟨"A"⟩, 11 / 24), (⟨"B"⟩, 13 / 24)]⟩),
  (⟨5⟩, ⟨some ⟨5⟩, [(⟨"A"⟩, 1), (⟨"B"⟩, 0)]⟩)]

theorem twoAssets_history : crossoverGraph.history (twoAssets ⟨5⟩ 40 1).client .standard
    ([⟨3⟩, ⟨4⟩, ⟨5⟩].map some) = .ok crossoverHistory := by
  cbv

theorem twoAssets_performance : (twoAssets ⟨5⟩ 40 1).client.performance
    (crossoverHistory.map fun (t, a) ↦ (some t, a)) =
      .ok ⟨[(⟨4⟩, -1 / 7), (⟨5⟩, 55 / 96)]⟩ := by
  cbv

/-- The first two of the days need nothing of the third. -/
theorem crossover_replayUpTo :
    crossoverGraph.history ((twoAssets ⟨5⟩ 40 1).upTo ⟨4⟩).client .standard [some ⟨3⟩, some ⟨4⟩] =
        .ok (crossoverHistory.take 2) ∧
      ((twoAssets ⟨5⟩ 40 1).upTo ⟨4⟩).client.performance
          ((crossoverHistory.take 2).map fun (t, a) ↦ (some t, a)) =
        .ok ⟨[(⟨4⟩, -1 / 7)]⟩ := by
  have hnodup : ∀ T ∈ (twoAssets ⟨5⟩ 40 1).tables, T.dates.Nodup := by decide
  exact crossoverGraph.replay_upTo hnodup twoAssets_history twoAssets_performance (k := 1) rfl

end ScorePortfolio

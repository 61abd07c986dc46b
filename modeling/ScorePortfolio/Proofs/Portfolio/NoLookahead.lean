import ScorePortfolio.Portfolio.Allocation
import ScorePortfolio.Proofs.Evaluation.Clients
import ScorePortfolio.Proofs.Evaluation.History
import ScorePortfolio.Proofs.Market.Truncation
import Mathlib

/-!
# No look-ahead

What a strategy sees as of a moment does not depend on later rows: over two markets that agree up to
the moment it has the same answers, the same outputs and the same weights, or fails in the same way.
Nor is anything that it sees dated after the moment, since a pass whose moment is its own cut has
outputs that are their own cuts.
-/

namespace ScorePortfolio

variable {α : Type}

theorem Series.le_of_upTo {s : Series α} {t : Instant} (h : s.upTo (some t) = s)
    {p : Instant × α} (hp : p ∈ s.points) : p.1 ≤ t := by
  rw [← h, Series.points_upTo] at hp
  simpa using List.mem_takeWhile_imp hp

variable {c c' : Client α} {asset : Asset} {t : Instant}

/-! ## Nothing is later than the moment -/

theorem Client.KeepsHistory.upTo_self (hc : c.KeepsHistory) (ht : t.InRange)
    {field : Option String} {s : Series α} (h : c.query asset (some t) field = .ok s) :
    s.upTo (some t) = s :=
  Except.ok.inj ((hc.upTo ht ht (Instant.le_refl t) h).symm.trans h)

variable [Quantity α]

/-- The outputs as of a moment are their own cuts there. -/
theorem Node.runAll_upTo_self (hc : c.KeepsHistory) (ht : t.InRange) {nodes : List Node}
    {all : List (Series α)} (h : (runAll c asset (some t) nodes [] nodes).result = .ok all) :
    ∀ x ∈ all, x.upTo (some t) = x := by
  -- the pass is the earlier pass of itself
  have hmap : all.map (·.upTo (some t)) = all := by
    have hle := Instant.le_refl t
    rcases runAll_earlier hc ht ht hle (by simp) h with hcut | ⟨_, _, e, _, herror, _⟩
    · exact Except.ok.inj (hcut.symm.trans h)
    · cases herror.symm.trans h
  exact fun x hx ↦ (List.map_eq_map_iff.mp (hmap.trans (List.map_id' all).symm)) x hx

/-- A pass as of a moment gives no point after it. -/
theorem Strategy.BuiltFrom.upTo_self {s : Strategy} {strict : Bool} {p : Plan} {g : Graph}
    (h : s.BuiltFrom strict p g) (hc : c.KeepsHistory) (ht : t.InRange) {r : AssetScore α}
    (hr : (g.evaluate c asset (some t)).result = .ok r) :
    ∀ x ∈ r.score :: r.outputs.map (·.2), x.upTo (some t) = x := by
  obtain ⟨all, hall, hscore, hr⟩ := h.evaluate_eq_ok.mp hr
  have hsub : ∀ x ∈ r.score :: r.outputs.map (·.2), x ∈ all := by
    intro x hx
    rcases List.mem_cons.mp hx with rfl | hx
    · exact List.mem_of_getElem? hscore
    · rw [hr] at hx
      obtain ⟨⟨n, x⟩, hmem, rfl⟩ := List.mem_map.mp hx
      exact (List.of_mem_zip hmem).2
  exact fun x hx ↦ Node.runAll_upTo_self hc ht hall x (hsub x hx)

/-! ## Nothing depends on later rows -/

/-- Clients that list the same assets and answer alike as of a moment are allocated alike at it. -/
theorem Graph.allocate_congr {g : Graph} {settings : Settings} (hassets : c.assets = c'.assets)
    (h : ∀ asset field, c.query asset (some t) field = c'.query asset (some t) field) :
    g.allocate c settings (some t) = g.allocate c' settings (some t) := by
  have hpass (asset : Asset) : g.evaluate c asset (some t) = g.evaluate c' asset (some t) :=
    evaluate_congr (h asset)
  simp only [allocate, scoreAssets, Client.sortedAssets, hassets, hpass]

/-- As of a moment, a built graph does not tell two markets apart that agree up to the moment, and
sees nothing that is dated after it. -/
theorem Strategy.build_noLookahead {s : Strategy} {strict : Bool} {g : Graph}
    (h : s.build strict = .ok g) {m m' : Market α} (ht : t.InRange)
    (hm : ∀ T ∈ m.tables, T.IsDated) (hm' : ∀ T ∈ m'.tables, T.IsDated)
    (hagree : m.AgreesUpTo m' t) :
    (∀ asset field,
      m.client.query asset (some t) field = m'.client.query asset (some t) field ∧
      ∀ x, m.client.query asset (some t) field = .ok x → ∀ p ∈ x.points, p.1 ≤ t) ∧
    (∀ asset,
      g.evaluate m.client asset (some t) = g.evaluate m'.client asset (some t) ∧
      ∀ r, (g.evaluate m.client asset (some t)).result = .ok r →
        ∀ x ∈ r.score :: r.outputs.map (·.2), ∀ p ∈ x.points, p.1 ≤ t) ∧
    ∀ settings,
      g.allocate m.client settings (some t) = g.allocate m'.client settings (some t) := by
  obtain ⟨p, hp⟩ := exists_plan h
  have hquery (asset : Asset) (field : Option String) :
      m.client.query asset (some t) field = m'.client.query asset (some t) field :=
    hagree.query_eq hm hm' ht asset field
  have hassets : m.client.assets = m'.client.assets :=
    Market.assets_congr (Market.labels_congr hagree.prices.labels)
  have hkeeps := m.client_keepsHistory
  refine ⟨fun asset field ↦ ⟨hquery asset field, fun x hx p hp ↦ ?_⟩, fun asset ↦
    ⟨Graph.evaluate_congr (hquery asset), fun r hr x hx p hp' ↦ ?_⟩, fun settings ↦
    Graph.allocate_congr hassets hquery⟩
  · exact Series.le_of_upTo (hkeeps.upTo_self ht hx) hp
  · exact Series.le_of_upTo (hp.upTo_self hkeeps ht hr x hx) hp'

/-! ## Two futures -/

/-- Prices of two assets over four days and a later one, whose rows are in no order. -/
def twoAssets (later : Instant) (a b : Rat) : Market Rat where
  prices := ⟨[some later, some ⟨3⟩, some ⟨1⟩, some ⟨4⟩, some ⟨2⟩],
    [(.text "A", [a, 14, 10, 12, 12]), (.text "B", [b, 10, 14, 12, 10])]⟩
  fields := []
  defaultField := closeField

/-- What the last row holds, and its date, does not matter before it. -/
theorem twoAssets_agreesUpTo {later later' t : Instant} (h : t < later) (h' : t < later')
    (a b a' b' : Rat) : (twoAssets later a b).AgreesUpTo (twoAssets later' a' b') t := by
  refine ⟨⟨rfl, fun {label cells cells'} hcells hcells' {d x} hd ↦ ?_⟩, fun _ ↦ Iff.rfl, nofun, rfl⟩
  have hne : d ≠ later := Instant.ne_of_lt (Instant.lt_of_le_of_lt hd h)
  have hne' : d ≠ later' := Instant.ne_of_lt (Instant.lt_of_le_of_lt hd h')
  simp only [Table.cells?, twoAssets, Entries.find?, List.find?_cons] at hcells hcells'
  cases hA : (Scalar.text "A").same label with
  | true =>
    obtain rfl := Option.some.inj (hA ▸ hcells)
    obtain rfl := Option.some.inj (hA ▸ hcells')
    simp [twoAssets, hne, hne']
  | false =>
    cases hB : (Scalar.text "B").same label with
    | true =>
      obtain rfl := Option.some.inj (hB ▸ hA ▸ hcells)
      obtain rfl := Option.some.inj (hB ▸ hA ▸ hcells')
      simp [twoAssets, hne, hne']
    | false => cases hB ▸ hA ▸ hcells

theorem twoAssets_isDated {later : Instant} (hrange : later.InRange)
    (h : (⟨4⟩ : Instant) < later) (a b : Rat) : ∀ T ∈ (twoAssets later a b).tables, T.IsDated := by
  intro T hT
  obtain rfl := List.mem_singleton.mp hT
  have hne (t : Instant) (ht : t ≤ ⟨4⟩) : later ≠ t :=
    (Instant.ne_of_lt (Instant.lt_of_le_of_lt ht h)).symm
  have hnodup : [some (⟨3⟩ : Instant), some ⟨1⟩, some ⟨4⟩, some ⟨2⟩].Nodup := by decide
  refine ⟨List.nodup_cons.mpr ⟨?_, hnodup⟩, ?_⟩
  · simpa using ⟨hne ⟨3⟩ (by decide), hne ⟨1⟩ (by decide), hne ⟨4⟩ (by decide), hne ⟨2⟩ (by decide)⟩
  · simp only [twoAssets, List.forall_mem_cons]
    exact ⟨⟨later, rfl, hrange⟩, ⟨⟨3⟩, rfl, by decide⟩, ⟨⟨1⟩, rfl, by decide⟩,
      ⟨⟨4⟩, rfl, by decide⟩, ⟨⟨2⟩, rfl, by decide⟩, nofun⟩

/-- What happens on the fifth day makes no difference to the weights of the fourth. -/
theorem crossover_noLookahead :
    (crossoverGraph.allocate (twoAssets ⟨5⟩ 40 1).client .standard (some ⟨4⟩)).map (·.weights) =
        .ok [(⟨"A"⟩, 11 / 24), (⟨"B"⟩, 13 / 24)] ∧
      crossoverGraph.allocate (twoAssets ⟨5⟩ 40 1).client .standard (some ⟨4⟩) =
        crossoverGraph.allocate (twoAssets ⟨7⟩ 1 9).client .standard (some ⟨4⟩) := by
  have hagree : (twoAssets ⟨5⟩ 40 1).AgreesUpTo (twoAssets ⟨7⟩ 1 9) ⟨4⟩ :=
    twoAssets_agreesUpTo (by decide) (by decide) 40 1 1 9
  obtain ⟨-, -, hallocate⟩ := Strategy.build_noLookahead crossover_build (by decide)
    (twoAssets_isDated (by decide) (by decide) 40 1)
    (twoAssets_isDated (by decide) (by decide) 1 9) hagree
  exact ⟨by cbv, hallocate .standard⟩

end ScorePortfolio

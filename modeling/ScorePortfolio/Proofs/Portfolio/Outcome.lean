import ScorePortfolio.Graph.Build
import ScorePortfolio.Proofs.Evaluation.Clients
import ScorePortfolio.Proofs.Number.Special
import ScorePortfolio.Proofs.Portfolio.Allocation

/-!
# When there is an allocation

To allocate, three traversals follow each other: the passes of the assets, the latest values of the
scores, and their weights.  Each goes through the universe in the order of the symbols, so an
allocation exists if none of them fails, and otherwise the first traversal that fails decides, at
the first asset that it fails for.  The order in which a client lists its assets is of no account.
-/

namespace ScorePortfolio

namespace Asset

theorem eq_of_symbol {a b : Asset} (h : a.symbol = b.symbol) : a = b :=
  congrArg mk h

/-- Assets that are listed otherwise come out in the same order. -/
theorem sort_congr {assets assets' : List Asset} (h : assets.Perm assets') :
    sort assets = sort assets' := by
  refine List.Perm.eq_of_pairwise (fun a b _ _ hab hba ↦ ?_) (pairwise_sort _) (pairwise_sort _)
    ((sort_perm _).trans (h.trans (sort_perm _).symm))
  exact eq_of_symbol (String.le_antisymm (of_decide_eq_true hab) (of_decide_eq_true hba))

/-- Each asset comes before those with greater symbols, and occurs once. -/
def Ascending (assets : List Asset) : Prop := assets.Pairwise fun a b ↦ a.symbol < b.symbol

instance (assets : List Asset) : Decidable (Ascending assets) :=
  inferInstanceAs (Decidable (List.Pairwise _ _))

theorem ascending_of_nodup {assets : List Asset} (hle : assets.Pairwise fun a b ↦ le a b = true)
    (hnodup : assets.Nodup) : Ascending assets := by
  refine hle.imp₂ (fun a b hab hne ↦ ?_) hnodup
  refine String.not_le.mp fun hba ↦ hne ?_
  exact eq_of_symbol (String.le_antisymm (of_decide_eq_true hab) hba)

theorem Ascending.nodup {assets : List Asset} (h : Ascending assets) : assets.Nodup :=
  List.Pairwise.imp (fun {a b} hlt (heq : a = b) ↦ String.lt_irrefl _ (heq ▸ hlt)) h

theorem Ascending.le {assets : List Asset} (h : Ascending assets) :
    assets.Pairwise fun a b ↦ le a b = true :=
  List.Pairwise.imp (fun hlt ↦ decide_eq_true (String.not_lt.mp (String.lt_asymm hlt))) h

/-- Entries of ascending assets are determined by what they contain. -/
theorem Ascending.ext {β : Type} {entries entries' : List (Asset × β)}
    (h : Ascending (entries.map (·.1))) (h' : Ascending (entries'.map (·.1)))
    (hmem : ∀ e, e ∈ entries ↔ e ∈ entries') : entries = entries' := by
  have hperm : entries.Perm entries' :=
    (List.perm_ext_iff_of_nodup h.nodup.of_map h'.nodup.of_map).mpr hmem
  rw [Ascending, List.pairwise_map] at h h'
  refine hperm.eq_of_pairwise (fun a b _ _ hab hba ↦ ?_) h h'
  exact absurd (String.lt_trans hab hba) (String.lt_irrefl _)

end Asset

/-- Along items in the order of their assets, a traversal fails as it does for the first asset that
it fails for. -/
theorem mapM_eq_error_iff_first {ε β γ : Type} (asset : β → Asset) (f : β → Except ε γ)
    {l : List β} (hle : l.Pairwise fun a b ↦ Asset.le (asset a) (asset b) = true)
    (hinj : ∀ a ∈ l, ∀ b ∈ l, asset a = asset b → a = b) {e : ε} :
    l.mapM f = .error e ↔ ∃ a ∈ l, f a = .error e ∧
      ∀ b ∈ l, (asset b).symbol < (asset a).symbol → ∃ r, f b = .ok r := by
  have hfirst {e : ε} (h : l.mapM f = .error e) : ∃ a ∈ l, f a = .error e ∧
      ∀ b ∈ l, (asset b).symbol < (asset a).symbol → ∃ r, f b = .ok r := by
    obtain ⟨done, a, rest, rfl, hdone, ha⟩ := mapM_eq_error h
    refine ⟨a, by simp, ha, fun b hb hlt ↦ ?_⟩
    have hrest := (List.pairwise_cons.mp (List.pairwise_append.mp hle).2.1).1
    rcases List.mem_append.mp hb with hb | hb
    · exact hdone b hb
    rcases List.mem_cons.mp hb with rfl | hb
    · exact absurd hlt (String.lt_irrefl _)
    · exact absurd (of_decide_eq_true (hrest b hb)) (String.not_le.mpr hlt)
  refine ⟨hfirst, ?_⟩
  rintro ⟨a, ha, herror, hbelow⟩
  cases h : l.mapM f with
  | ok r =>
    obtain ⟨b, hb⟩ := exists_mapM_eq_ok.mp ⟨r, h⟩ a ha
    cases hb.symm.trans herror
  | error e' =>
    -- neither of the two failing items can come before the other
    obtain ⟨a', ha', herror', hbelow'⟩ := hfirst h
    have hge : ¬ (asset a').symbol < (asset a).symbol := fun hlt ↦ by
      obtain ⟨r, hr⟩ := hbelow a' ha' hlt
      cases hr.symm.trans herror'
    have hle : ¬ (asset a).symbol < (asset a').symbol := fun hlt ↦ by
      obtain ⟨r, hr⟩ := hbelow' a ha hlt
      cases hr.symm.trans herror
    have hsame := String.le_antisymm (String.not_lt.mp hle) (String.not_lt.mp hge)
    obtain rfl := hinj a' ha' a ha (Asset.eq_of_symbol hsame)
    exact congrArg _ (Except.error.inj (herror'.symm.trans herror))

/-- Over assets in order, a traversal fails with the failure of the first asset to fail. -/
theorem Asset.Ascending.mapM_eq_error_iff {ε β γ : Type} {entries : List (Asset × β)}
    (h : Ascending (entries.map (·.1))) (f : Asset × β → Except ε γ) {e : ε} :
    entries.mapM f = .error e ↔ ∃ a ∈ entries, f a = .error e ∧
      ∀ b ∈ entries, b.1.symbol < a.1.symbol → ∃ r, f b = .ok r := by
  have hle : entries.Pairwise fun a b ↦ Asset.le a.1 b.1 = true := List.pairwise_map.mp h.le
  exact mapM_eq_error_iff_first Prod.fst f hle fun a ha b hb hab ↦
    List.inj_on_of_nodup_map h.nodup ha hb hab

variable {α : Type} [Quantity α]

namespace Graph

variable {g : Graph} {c : Client α} {settings : Settings} {t : Option Instant}

/-! ## The passes -/

/-- The pass of the asset succeeds. -/
def Passes (g : Graph) (c : Client α) (t : Option Instant) (asset : Asset) : Prop :=
  ∃ s, (g.evaluate c asset t).result = .ok s

omit [Quantity α] in
theorem mem_sortedAssets {asset : Asset} :
    asset ∈ Asset.sort c.sortedAssets ↔ asset ∈ c.assets.map (·.2) := by
  rw [Client.sortedAssets, Asset.sort_sort, (Asset.sort_perm _).mem_iff]

omit [Quantity α] in
theorem length_sortedAssets : (Asset.sort c.sortedAssets).length = c.assets.length := by
  rw [Client.sortedAssets, Asset.sort_sort, (Asset.sort_perm _).length_eq, List.length_map]

/-- Scores are there for the universe, each asset once, in the order of the symbols. -/
theorem scoreAssets_spec {scores : List (Asset × AssetScore α)}
    (h : g.scoreAssets c settings t c.sortedAssets = .ok scores) :
    settings.checkPool c.assets.length = .ok () ∧ Asset.Ascending (scores.map (·.1)) ∧
      (∀ asset, asset ∈ scores.map (·.1) ↔ asset ∈ c.assets.map (·.2)) ∧
      ∀ e ∈ scores, (g.evaluate c e.1 t).result = .ok e.2 := by
  obtain ⟨⟨⟩, hpool, h⟩ := bind_eq_ok.mp h
  obtain ⟨found, hfound, h⟩ := bind_eq_ok.mp h
  obtain rfl := pure_eq_ok.mp h
  have hkeys : found.map (·.1) = (Asset.sort c.sortedAssets).map id :=
    map_fst_of_mapM (fun asset e he ↦ (keyed_eq_ok.mp he).1) hfound
  rw [List.map_id] at hkeys
  refine ⟨length_sortedAssets (c := c) ▸ mapError_eq_ok.mp hpool, ?_, fun asset ↦ ?_, fun e he ↦ ?_⟩
  · refine Asset.ascending_of_nodup ?_ (Entries.nodup_ofList found)
    exact (hkeys ▸ Asset.pairwise_sort _).sublist (Entries.keys_ofList_sublist found)
  · rw [Entries.mem_keys_ofList, hkeys, mem_sortedAssets]
  · obtain ⟨asset, -, hscore⟩ := (mem_of_mapM_eq_ok hfound).mp (Entries.ofList_subset found he)
    obtain ⟨rfl, hscore⟩ := keyed_eq_ok.mp hscore
    exact hscore

/-- All assets are scored exactly if the pool is admissible and the pass of each succeeds. -/
theorem exists_scoreAssets : (∃ scores, g.scoreAssets c settings t c.sortedAssets = .ok scores) ↔
    settings.checkPool c.assets.length = .ok () ∧ ∀ asset ∈ c.assets.map (·.2), g.Passes c t asset := by
  constructor
  · rintro ⟨scores, h⟩
    obtain ⟨hpool, -, hkeys, hscores⟩ := scoreAssets_spec h
    refine ⟨hpool, fun asset hasset ↦ ?_⟩
    obtain ⟨e, he, rfl⟩ := List.mem_map.mp ((hkeys asset).mpr hasset)
    exact ⟨e.2, hscores e he⟩
  · rintro ⟨hpool, hpasses⟩
    obtain ⟨found, hfound⟩ : ∃ found, (Asset.sort c.sortedAssets).mapM (fun asset ↦
        ((g.evaluate c asset t).result.map fun s ↦ (asset, s)).mapError
          AllocationError.evaluation) = .ok found := by
      refine exists_mapM_eq_ok.mpr fun asset hasset ↦ ?_
      obtain ⟨s, hs⟩ := hpasses asset (mem_sortedAssets.mp hasset)
      exact ⟨(asset, s), keyed_eq_ok.mpr ⟨rfl, hs⟩⟩
    exact ⟨_, bind_eq_ok.mpr ⟨(), mapError_eq_ok.mpr (length_sortedAssets (c := c) ▸ hpool),
      bind_eq_ok.mpr ⟨found, hfound, rfl⟩⟩⟩

/-- Without scores, the worker pool cannot be made, or the first pass that fails decides. -/
theorem scoreAssets_eq_error {e : AllocationError} :
    g.scoreAssets c settings t c.sortedAssets = .error e ↔
      (∃ cause, settings.checkPool c.assets.length = .error cause ∧ e = .pool cause) ∨
      settings.checkPool c.assets.length = .ok () ∧
        ∃ asset ∈ c.assets.map (·.2), ∃ cause, (g.evaluate c asset t).result = .error cause ∧
          e = .evaluation cause ∧
          ∀ b ∈ c.assets.map (·.2), b.symbol < asset.symbol → g.Passes c t b := by
  have hfirst := mapM_eq_error_iff_first id (fun asset ↦
    ((g.evaluate c asset t).result.map fun s ↦ (asset, s)).mapError AllocationError.evaluation)
    (Asset.pairwise_sort c.sortedAssets) (fun _ _ _ _ h ↦ h) (e := e)
  simp only [keyed_eq_error, exists_keyed_eq_ok, mem_sortedAssets, id] at hfirst
  rw [scoreAssets, bind_eq_error, mapError_eq_error, length_sortedAssets]
  refine or_congr (exists_congr fun cause ↦ and_congr_right fun _ ↦ eq_comm) ?_
  simp only [mapError_eq_ok, bind_eq_error, hfirst, pure_ne_error, and_false, exists_false, or_false]
  constructor
  · rintro ⟨⟨⟩, hpool, asset, hasset, ⟨cause, hcause, rfl⟩, hbelow⟩
    exact ⟨hpool, asset, hasset, cause, hcause, rfl, hbelow⟩
  · rintro ⟨hpool, asset, hasset, cause, hcause, rfl, hbelow⟩
    exact ⟨(), hpool, asset, hasset, ⟨cause, hcause, rfl⟩, hbelow⟩

/-! ## The latest values -/

/-- The pass of the asset succeeds, and its score has the latest value. -/
def LastScore (g : Graph) (c : Client α) (t : Option Instant) (asset : Asset) (x : α) : Prop :=
  ∃ s, (g.evaluate c asset t).result = .ok s ∧ s.score.last = .ok x

/-- An asset has one last score at a moment. -/
theorem LastScore.unique {asset : Asset} {x y : α} (hx : g.LastScore c t asset x)
    (hy : g.LastScore c t asset y) : x = y := by
  obtain ⟨s, hs, hx⟩ := hx
  obtain ⟨s', hs', hy⟩ := hy
  obtain rfl := Except.ok.inj (hs.symm.trans hs')
  exact Except.ok.inj (hx.symm.trans hy)

/-- The assets of the universe, each once, in the order of the symbols, with the latest values of
their scores. -/
structure LastScores (g : Graph) (c : Client α) (t : Option Instant) (lasts : List (Asset × α)) :
    Prop where
  ascending : Asset.Ascending (lasts.map (·.1))
  covers : ∀ asset, asset ∈ lasts.map (·.1) ↔ asset ∈ c.assets.map (·.2)
  last : ∀ e ∈ lasts, g.LastScore c t e.1 e.2

/-- The last scores are determined, their order included. -/
theorem LastScores.unique {lasts lasts' : List (Asset × α)} (h : g.LastScores c t lasts)
    (h' : g.LastScores c t lasts') : lasts = lasts' := by
  have hsub {l l' : List (Asset × α)} (hl : g.LastScores c t l) (hl' : g.LastScores c t l')
      {e : Asset × α} (he : e ∈ l) : e ∈ l' := by
    have hasset := (hl.covers e.1).mp (List.mem_map_of_mem he)
    obtain ⟨e', he', hfst⟩ := List.mem_map.mp ((hl'.covers e.1).mpr hasset)
    have hsnd : e'.2 = e.2 := (hl'.last e' he').unique (hfst ▸ hl.last e he)
    exact Prod.ext hfst hsnd ▸ he'
  exact h.ascending.ext h'.ascending fun e ↦ ⟨hsub h h', hsub h' h⟩

theorem LastScores.exists_last {lasts : List (Asset × α)} (h : g.LastScores c t lasts)
    {asset : Asset} (hasset : asset ∈ c.assets.map (·.2)) : ∃ x, g.LastScore c t asset x := by
  obtain ⟨e, he, rfl⟩ := List.mem_map.mp ((h.covers asset).mpr hasset)
  exact ⟨e.2, h.last e he⟩

/-- The values with the negative ones set to zero. -/
def clamped (lasts : List (Asset × α)) : List (Asset × α) :=
  lasts.map fun (asset, x) ↦ (asset, Quantity.clamp x)

theorem lastPoint?_zeroNegatives (s : Series α) :
    s.zeroNegatives.lastPoint? = s.lastPoint?.map fun p ↦ (p.1, Quantity.clamp p.2) := by
  rw [Series.zeroNegatives, Series.lastPoint?, Series.lastPoint?, Series.map, List.getLast?_map]

theorem latestScore_eq_ok {asset : Asset} {s : AssetScore α} {e : Asset × α} :
    latestScore t asset s = .ok e ↔ ∃ x, s.score.last = .ok x ∧ e = (asset, Quantity.clamp x) := by
  rw [latestScore, lastPoint?_zeroNegatives, Series.last]
  cases s.score.lastPoint? <;> simp [eq_comm]

/-- A latest score fails on an empty series alone. -/
theorem latestScore_eq_error {asset : Asset} {s : AssetScore α} {e : AllocationError} :
    latestScore t asset s = .error e ↔ s.score.isEmpty = true ∧ e = .emptyScore asset t := by
  rw [latestScore, lastPoint?_zeroNegatives, Series.lastPoint?, Series.isEmpty]
  cases h : s.score.points.getLast? with
  | none => simp [List.getLast?_eq_none_iff.mp h, eq_comm]
  | some p => simp [List.ne_nil_of_mem (List.mem_of_getLast? h)]

/-- The latest values are there if every pass succeeds and no score is empty. -/
theorem latest_eq_ok {latest : List (Asset × α)} :
    (∃ scores, g.scoreAssets c settings t c.sortedAssets = .ok scores ∧
      scores.mapM (fun (asset, s) ↦ latestScore t asset s) = .ok latest) ↔
    settings.checkPool c.assets.length = .ok () ∧
      ∃ lasts, g.LastScores c t lasts ∧ latest = clamped lasts := by
  have hread {scores : List (Asset × AssetScore α)}
      (hscores : g.scoreAssets c settings t c.sortedAssets = .ok scores)
      (hlast : ∀ e ∈ scores, ∃ x, e.2.score.last = .ok x) :
      ∃ lasts, g.LastScores c t lasts ∧
        scores.mapM (fun (asset, s) ↦ latestScore t asset s) = .ok (clamped lasts) := by
    obtain ⟨-, hascending, hcovers, hpasses⟩ := scoreAssets_spec hscores
    obtain ⟨lasts, hlasts⟩ : ∃ lasts, scores.mapM (fun e ↦
        (e.2.score.last.map fun x ↦ (e.1, x)).mapError id) = .ok lasts :=
      exists_mapM_eq_ok.mpr fun e he ↦ exists_keyed_eq_ok.mpr (hlast e he)
    have hkeys : lasts.map (·.1) = scores.map (·.1) :=
      map_fst_of_mapM (fun e l hl ↦ (keyed_eq_ok.mp hl).1) hlasts
    refine ⟨lasts, ⟨hkeys ▸ hascending, fun asset ↦ hkeys ▸ hcovers asset, fun l hl ↦ ?_⟩, ?_⟩
    · obtain ⟨e, he, hel⟩ := (mem_of_mapM_eq_ok hlasts).mp hl
      obtain ⟨hfst, hx⟩ := keyed_eq_ok.mp hel
      exact ⟨e.2, hfst ▸ hpasses e he, hx⟩
    · rw [mapM_eq_ok, clamped, List.forall₂_map_right_iff]
      refine (mapM_eq_ok.mp hlasts).imp fun e l hel ↦ ?_
      obtain ⟨hfst, hx⟩ := keyed_eq_ok.mp hel
      exact latestScore_eq_ok.mpr ⟨l.2, hx, hfst ▸ rfl⟩
  constructor
  · rintro ⟨scores, hscores, hlatest⟩
    have hlast : ∀ e ∈ scores, ∃ x, e.2.score.last = .ok x := by
      intro e he
      obtain ⟨l, hl⟩ := exists_mapM_eq_ok.mp ⟨latest, hlatest⟩ e he
      obtain ⟨x, hx, -⟩ := latestScore_eq_ok.mp hl
      exact ⟨x, hx⟩
    obtain ⟨lasts, hlasts, h⟩ := hread hscores hlast
    exact ⟨(scoreAssets_spec hscores).1, lasts, hlasts, Except.ok.inj (hlatest.symm.trans h)⟩
  · rintro ⟨hpool, lasts, hlasts, rfl⟩
    obtain ⟨scores, hscores⟩ := exists_scoreAssets.mpr ⟨hpool, fun asset hasset ↦ by
      obtain ⟨x, s, hs, -⟩ := hlasts.exists_last hasset
      exact ⟨s, hs⟩⟩
    obtain ⟨-, -, hcovers, hpasses⟩ := scoreAssets_spec hscores
    obtain ⟨lasts', hlasts', h⟩ := hread hscores fun e he ↦ by
      obtain ⟨x, s, hs, hx⟩ := hlasts.exists_last ((hcovers e.1).mp (List.mem_map_of_mem he))
      obtain rfl := Except.ok.inj (hs.symm.trans (hpasses e he))
      exact ⟨x, hx⟩
    exact ⟨scores, hscores, hlasts.unique hlasts' ▸ h⟩

/-- Where the scores are there, the first empty one decides. -/
theorem latest_eq_error {scores : List (Asset × AssetScore α)}
    (hscores : g.scoreAssets c settings t c.sortedAssets = .ok scores) {e : AllocationError} :
    scores.mapM (fun (asset, s) ↦ latestScore t asset s) = .error e ↔
      ∃ asset ∈ c.assets.map (·.2), ∃ s, (g.evaluate c asset t).result = .ok s ∧
        s.score.isEmpty = true ∧ e = .emptyScore asset t ∧
        ∀ b ∈ c.assets.map (·.2), b.symbol < asset.symbol → ∃ x, g.LastScore c t b x := by
  obtain ⟨-, hascending, hcovers, hpasses⟩ := scoreAssets_spec hscores
  have hlast (b : Asset × AssetScore α) (hb : b ∈ scores) :
      (∃ r, latestScore t b.1 b.2 = .ok r) ↔ ∃ x, g.LastScore c t b.1 x := by
    simp only [latestScore_eq_ok, LastScore, hpasses b hb, Except.ok.injEq, exists_eq_left']
    exact ⟨fun ⟨_, x, hx, _⟩ ↦ ⟨x, hx⟩, fun ⟨x, hx⟩ ↦ ⟨_, x, hx, rfl⟩⟩
  refine (hascending.mapM_eq_error_iff fun e ↦ latestScore t e.1 e.2).trans ?_
  constructor
  · rintro ⟨a, ha, herror, hbelow⟩
    obtain ⟨hempty, rfl⟩ := latestScore_eq_error.mp herror
    refine ⟨a.1, (hcovers a.1).mp (List.mem_map_of_mem ha), a.2, hpasses a ha, hempty, rfl, ?_⟩
    intro b hb hlt
    obtain ⟨e, he, rfl⟩ := List.mem_map.mp ((hcovers b).mpr hb)
    exact (hlast e he).mp (hbelow e he hlt)
  · rintro ⟨asset, hasset, s, hs, hempty, rfl, hbelow⟩
    obtain ⟨a, ha, rfl⟩ := List.mem_map.mp ((hcovers asset).mpr hasset)
    obtain rfl := Except.ok.inj (hs.symm.trans (hpasses a ha))
    refine ⟨a, ha, latestScore_eq_error.mpr ⟨hempty, rfl⟩, fun b hb hlt ↦ (hlast b hb).mpr ?_⟩
    exact hbelow b.1 ((hcovers b.1).mp (List.mem_map_of_mem hb)) hlt

/-! ## Allocations -/

/-- An allocation holds the weights that the latest values give. -/
theorem allocate_eq_ok_iff {a : Allocation α} : g.allocate c settings t = .ok a ↔
    settings.checkPool c.assets.length = .ok () ∧
      ∃ lasts weights, g.LastScores c t lasts ∧ normalize (clamped lasts) = .ok weights ∧
        a = ⟨t, weights⟩ := by
  have hordered {lasts weights : List (Asset × α)} (hlasts : g.LastScores c t lasts)
      (hweights : normalize (clamped lasts) = .ok weights) :
      Allocation.ofWeights t weights = ⟨t, weights⟩ := by
    refine Allocation.ofWeights_of_pairwise ?_
    rw [assets_of_normalize hweights, clamped, List.map_map]
    exact hlasts.ascending.le
  rw [allocate_eq_ok]
  constructor
  · rintro ⟨scores, latest, weights, hscores, hlatest, hweights, rfl⟩
    obtain ⟨hpool, lasts, hlasts, rfl⟩ := latest_eq_ok.mp ⟨scores, hscores, hlatest⟩
    exact ⟨hpool, lasts, weights, hlasts, hweights, hordered hlasts hweights⟩
  · rintro ⟨hpool, lasts, weights, hlasts, hweights, rfl⟩
    obtain ⟨scores, hscores, hlatest⟩ := latest_eq_ok.mpr ⟨hpool, lasts, hlasts, rfl⟩
    exact ⟨scores, _, weights, hscores, hlatest, hweights, (hordered hlasts hweights).symm⟩

/-- What there is instead of an allocation: the failure of the worker pool, of the first pass that
fails, of the first empty score, or of the weights. -/
inductive FailsFirst (g : Graph) (c : Client α) (settings : Settings) (t : Option Instant) :
    AllocationError → Prop where
  | pool {cause} : settings.checkPool c.assets.length = .error cause →
      FailsFirst g c settings t (.pool cause)
  | evaluation {asset cause} : settings.checkPool c.assets.length = .ok () →
      asset ∈ c.assets.map (·.2) → (g.evaluate c asset t).result = .error cause →
      (∀ b ∈ c.assets.map (·.2), b.symbol < asset.symbol → g.Passes c t b) →
      FailsFirst g c settings t (.evaluation cause)
  | emptyScore {asset s} : settings.checkPool c.assets.length = .ok () →
      (∀ b ∈ c.assets.map (·.2), g.Passes c t b) →
      asset ∈ c.assets.map (·.2) → (g.evaluate c asset t).result = .ok s →
      s.score.isEmpty = true →
      (∀ b ∈ c.assets.map (·.2), b.symbol < asset.symbol → ∃ x, g.LastScore c t b x) →
      FailsFirst g c settings t (.emptyScore asset t)
  | weights {lasts cause} : settings.checkPool c.assets.length = .ok () →
      g.LastScores c t lasts → normalize (clamped lasts) = .error cause →
      FailsFirst g c settings t (.weights t cause)

/-- An allocation fails exactly with what is first in the order of the failures. -/
theorem allocate_eq_error_iff {e : AllocationError} :
    g.allocate c settings t = .error e ↔ g.FailsFirst c settings t e := by
  simp only [allocate, bind_eq_error, mapError_eq_ok, mapError_eq_error]
  constructor
  · rintro (h | ⟨scores, hscores, h | ⟨latest, hlatest, ⟨cause, h, rfl⟩ | ⟨_, -, h⟩⟩⟩)
    · rcases scoreAssets_eq_error.mp h with
        ⟨cause, hpool, rfl⟩ | ⟨hpool, asset, hasset, cause, hcause, rfl, hbelow⟩
      · exact .pool hpool
      · exact .evaluation hpool hasset hcause hbelow
    · obtain ⟨hpool, hpasses⟩ := exists_scoreAssets.mp ⟨scores, hscores⟩
      obtain ⟨asset, hasset, s, hs, hempty, rfl, hbelow⟩ := (latest_eq_error hscores).mp h
      exact .emptyScore hpool hpasses hasset hs hempty hbelow
    · obtain ⟨hpool, lasts, hlasts, rfl⟩ := latest_eq_ok.mp ⟨scores, hscores, hlatest⟩
      exact .weights hpool hlasts h
    · exact absurd h pure_ne_error
  · intro h
    cases h with
    | pool hpool => exact .inl (scoreAssets_eq_error.mpr (.inl ⟨_, hpool, rfl⟩))
    | evaluation hpool hasset hcause hbelow =>
      exact .inl (scoreAssets_eq_error.mpr (.inr ⟨hpool, _, hasset, _, hcause, rfl, hbelow⟩))
    | emptyScore hpool hpasses hasset hs hempty hbelow =>
      obtain ⟨scores, hscores⟩ := exists_scoreAssets.mpr ⟨hpool, hpasses⟩
      exact .inr ⟨scores, hscores,
        .inl ((latest_eq_error hscores).mpr ⟨_, hasset, _, hs, hempty, rfl, hbelow⟩)⟩
    | weights hpool hlasts h =>
      obtain ⟨scores, hscores, hlatest⟩ := latest_eq_ok.mpr ⟨hpool, _, hlasts, rfl⟩
      exact .inr ⟨scores, hscores, .inr ⟨_, hlatest, .inl ⟨_, h, rfl⟩⟩⟩

/-- A client that gives the same answers and lists the same assets in any order has the same
allocations. -/
theorem allocate_of_perm {c' : Client α} (hquery : c'.query = c.query)
    (hassets : c'.assets.Perm c.assets) :
    g.allocate c' settings t = g.allocate c settings t := by
  have hsorted : c'.sortedAssets = c.sortedAssets := Asset.sort_congr (hassets.map _)
  have hpass (asset : Asset) : g.evaluate c' asset t = g.evaluate c asset t :=
    evaluate_congr fun field ↦ by rw [hquery]
  simp only [allocate, scoreAssets, hsorted, hpass]

end Graph

/-! ## Allocations of doubles -/

/-- Any number of workers may be asked for, or a positive one. -/
def Settings.HasPool (s : Settings) : Prop :=
  s.maxWorkers = .scalar .null ∨ ∃ n : ℤ, 0 < n ∧ s.maxWorkers = .scalar (.int n)

theorem Settings.HasPool.checkPool {s : Settings} (h : s.HasPool) (assets : ℕ) :
    s.checkPool assets = .ok () := by
  rw [Settings.checkPool]
  split
  · rfl
  · rcases h with h | ⟨n, hn, h⟩
    · rw [h]
    · rw [h]
      exact if_neg hn.not_ge

theorem longOnly_zero : longOnly (Quantity.zero : Float) = Quantity.zero := by decide

/-- Whether a negative score is set to zero once or twice makes no difference. -/
theorem longOnly_clamp (x : Float) : longOnly (Quantity.clamp x) = longOnly x := by
  rw [Quantity.clamp]
  split
  · next hneg =>
    rw [longOnly_zero]
    exact (if_neg (Binary.not_zero_lt_of_lt_zero hneg)).symm
  · rfl

namespace Graph

/-- There is an allocation if every pass succeeds, no score is empty and the latest values give
weights; it covers the universe in the order of the symbols, and each weight is the share of the
latest value, or zero, in the sum of all of these.  Otherwise the first failure decides. -/
theorem allocate_outcome (g : Graph) (c : Client Float) (settings : Settings)
    (t : Option Instant) :
    (∀ a, g.allocate c settings t = .ok a ↔ settings.checkPool c.assets.length = .ok () ∧
      ∃ lasts weights, g.LastScores c t lasts ∧ normalize (clamped lasts) = .ok weights ∧
        a = ⟨t, weights⟩ ∧ ∃ sum, Quantity.total (lasts.map fun e ↦ longOnly e.2) = .ok sum ∧
          weights = lasts.map fun e ↦ (e.1, longOnly e.2 / sum)) ∧
    (∀ e, g.allocate c settings t = .error e ↔ g.FailsFirst c settings t e) ∧
    (settings.HasPool → settings.checkPool c.assets.length = .ok ()) ∧
    ∀ c' : Client Float, c'.query = c.query → c'.assets.Perm c.assets →
      g.allocate c' settings t = g.allocate c settings t := by
  refine ⟨fun a ↦ ?_, fun e ↦ allocate_eq_error_iff, fun h ↦ h.checkPool _,
    fun c' ↦ allocate_of_perm⟩
  rw [allocate_eq_ok_iff]
  refine and_congr_right fun _ ↦ exists_congr fun lasts ↦ exists_congr fun weights ↦
    and_congr_right fun _ ↦ and_congr_right fun hweights ↦ (and_iff_left ?_).symm
  obtain ⟨-, sum, hsum, -, rfl⟩ := normalize_eq_ok.mp hweights
  simp only [clamped, List.map_map, Function.comp_def, longOnly_clamp] at hsum ⊢
  exact ⟨sum, hsum, rfl⟩

end Graph

/-- A client with one price for each of its assets, whatever the moment and the field. -/
def spotClient (prices : List (String × Float)) : Client Float where
  assets := prices.map fun (symbol, _) ↦ (symbol, ⟨symbol⟩)
  asset symbol := .ok ⟨symbol⟩
  query asset _ _ :=
    match prices.lookup asset.symbol with
    | some x => .ok ⟨[(⟨1⟩, x)]⟩
    | none => .error (.assetNotFound asset.symbol)

/-- The strategy whose score is the price. -/
def priceScore : Strategy where
  name := .text "price"
  score := .text "price"
  calculations := [⟨.text "price", .query, [⟨.text "field", .text, "close"⟩]⟩]

/-- The graph of the price. -/
def priceGraph : Graph := ⟨.text "price", [.query (.text "price") (some "close")], 0, []⟩

/-- A negative price has no share, and the order of the listing is of no account. -/
theorem priceGraph_allocate : priceScore.build true = .ok priceGraph ∧
    priceGraph.allocate (spotClient [("C", -2), ("B", 1), ("A", 3)]) .standard (some ⟨1⟩) =
      .ok ⟨some ⟨1⟩, [(⟨"A"⟩, 0.75), (⟨"B"⟩, 0.25), (⟨"C"⟩, 0)]⟩ := by
  refine ⟨rfl, ((priceGraph.allocate_outcome _ _ _).1 _).mpr
    ⟨rfl, [(⟨"A"⟩, 3), (⟨"B"⟩, 1), (⟨"C"⟩, -2)], _, ⟨by decide, fun asset ↦ ?_, ?_⟩, ?_, rfl, 4,
      ?_, ?_⟩⟩
  · simp [spotClient, or_comm, or_assoc]
  · intro e he
    simp only [List.mem_cons, List.not_mem_nil, or_false] at he
    rcases he with rfl | rfl | rfl <;> exact ⟨_, rfl, rfl⟩
  · decide +kernel
  · decide +kernel
  · decide +kernel

end ScorePortfolio

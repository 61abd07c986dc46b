import ScorePortfolio.Portfolio.Allocation
import ScorePortfolio.Proofs.Entries
import ScorePortfolio.Proofs.Traversal

/-!
# The assets of an allocation

An allocation gives every asset of the universe one weight, in the order of the symbols: each step
from the scores to the weights goes from asset to asset and keeps their order.
-/

namespace ScorePortfolio

namespace Asset

theorem sort_perm (assets : List Asset) : (sort assets).Perm assets := List.mergeSort_perm _ _

theorem sortEntries_perm {β : Type} (entries : List (Asset × β)) :
    (sortEntries entries).Perm entries :=
  List.mergeSort_perm _ _

theorem pairwise_sort (assets : List Asset) :
    (sort assets).Pairwise fun a b ↦ le a b = true :=
  List.pairwise_mergeSort (by simpa [le] using fun _ _ _ ↦ String.le_trans)
    (by simpa [le] using fun a b : Asset ↦ String.le_total a.symbol b.symbol) assets

theorem sort_of_pairwise {assets : List Asset} (h : assets.Pairwise fun a b ↦ le a b = true) :
    sort assets = assets :=
  List.mergeSort_of_pairwise h

theorem sort_sort (assets : List Asset) : sort (sort assets) = sort assets :=
  sort_of_pairwise (pairwise_sort assets)

/-- Sorted entries are in order of their assets. -/
theorem pairwise_sortEntries {β : Type} (entries : List (Asset × β)) :
    (sortEntries entries).Pairwise fun e e' ↦ le e.1 e'.1 = true := by
  refine List.pairwise_mergeSort (fun a b c hab hbc ↦ ?_) (fun a b ↦ ?_) entries
  · exact decide_eq_true (String.le_trans (of_decide_eq_true hab) (of_decide_eq_true hbc))
  · simpa [le] using String.le_total a.1.symbol b.1.symbol

theorem sortEntries_of_pairwise {β : Type} {entries : List (Asset × β)}
    (h : (entries.map (·.1)).Pairwise fun a b ↦ le a b = true) : sortEntries entries = entries :=
  List.mergeSort_of_pairwise (List.pairwise_map.mp h)

end Asset

theorem Allocation.ofWeights_of_pairwise {α : Type} {t : Option Instant}
    {weights : List (Asset × α)}
    (h : (weights.map (·.1)).Pairwise fun a b ↦ Asset.le a b = true) :
    ofWeights t weights = ⟨t, weights⟩ :=
  congrArg (mk t) (Asset.sortEntries_of_pairwise h)

/-- A traversal that keeps the keys of its items. -/
theorem map_fst_of_mapM {ε α β κ : Type} {key : α → κ} {f : α → Except ε (κ × β)}
    (hf : ∀ a e, f a = .ok e → e.1 = key a) {l : List α} {r : List (κ × β)}
    (h : l.mapM f = .ok r) : r.map (·.1) = l.map key := by
  have hkeys : List.Forall₂ (fun a e ↦ key a = e.1) l r :=
    (mapM_eq_ok.mp h).imp fun a e he ↦ (hf a e he).symm
  have hmaps : List.Forall₂ (· = ·) (l.map key) (r.map (·.1)) := by
    rwa [List.forall₂_map_left_iff, List.forall₂_map_right_iff]
  rw [List.forall₂_eq_eq_eq] at hmaps
  exact hmaps.symm

variable {α : Type} [Quantity α]

/-! ## Weights from scores -/

/-- Scores are made long-only exactly if all of them are finite. -/
theorem longOnlyScores_eq_ok {scores zeroed : List (Asset × α)} :
    longOnlyScores scores = .ok zeroed ↔ (∀ e ∈ scores, Quantity.nonFinite? e.2 = none) ∧
      zeroed = scores.map fun e ↦ (e.1, longOnly e.2) := by
  rw [longOnlyScores, eq_comm (a := zeroed)]
  refine mapM_eq_ok_of_step fun (asset, score) e ↦ ?_
  cases h : Quantity.nonFinite? score <;> simp [h]

/-- Finite scores with a sum that is not zero give weights, each the share of its score. -/
theorem normalize_eq_ok {scores weights : List (Asset × α)} :
    normalize scores = .ok weights ↔ (∀ e ∈ scores, Quantity.nonFinite? e.2 = none) ∧
      ∃ sum, Quantity.total (scores.map fun e ↦ longOnly e.2) = .ok sum ∧
        Quantity.eq sum Quantity.zero = false ∧
        weights = scores.map fun e ↦ (e.1, longOnly e.2 / sum) := by
  have hvalues : (scores.map fun e ↦ (e.1, longOnly e.2)).map (·.2) =
      scores.map fun e ↦ longOnly e.2 := by
    rw [List.map_map]
    rfl
  have hshares (sum : α) : (scores.map fun e ↦ (e.1, longOnly e.2)).map
      (fun e ↦ (e.1, e.2 / sum)) = scores.map fun e ↦ (e.1, longOnly e.2 / sum) := by
    rw [List.map_map]
    rfl
  simp only [normalize, bind_eq_ok, longOnlyScores_eq_ok, mapError_eq_ok]
  constructor
  · rintro ⟨_, ⟨hfinite, rfl⟩, sum, hsum, h⟩
    rw [hvalues] at hsum
    refine ⟨hfinite, sum, hsum, ?_⟩
    split at h
    · cases h
    · next hne => exact ⟨Bool.eq_false_iff.mpr hne, hshares sum ▸ (pure_eq_ok.mp h).symm⟩
  · rintro ⟨hfinite, sum, hsum, hne, rfl⟩
    refine ⟨_, ⟨hfinite, rfl⟩, sum, hvalues.symm ▸ hsum, ?_⟩
    rw [if_neg (Bool.eq_false_iff.mp hne), hshares]
    rfl

/-- Normalizing keeps the assets, in their order. -/
theorem assets_of_normalize {scores weights : List (Asset × α)}
    (h : normalize scores = .ok weights) : weights.map (·.1) = scores.map (·.1) := by
  obtain ⟨-, sum, -, -, rfl⟩ := normalize_eq_ok.mp h
  rw [List.map_map]
  rfl

/-! ## Allocations -/

namespace Graph

variable {g : Graph} {c : Client α} {settings : Settings} {t : Option Instant} {a : Allocation α}
  {assets : List Asset}

/-- An allocation is made of the scores of the assets, the latest score of each, and their
shares. -/
theorem allocate_eq_ok : g.allocate c settings t = .ok a ↔
    ∃ scores latest weights, g.scoreAssets c settings t c.sortedAssets = .ok scores ∧
      scores.mapM (fun (asset, s) ↦ latestScore t asset s) = .ok latest ∧
      normalize latest = .ok weights ∧ a = .ofWeights t weights := by
  simp only [allocate, bind_eq_ok, mapError_eq_ok, pure_eq_ok]
  constructor
  · rintro ⟨scores, hscores, latest, hlatest, weights, hweights, rfl⟩
    exact ⟨scores, latest, weights, hscores, hlatest, hweights, rfl⟩
  · rintro ⟨scores, latest, weights, hscores, hlatest, hweights, rfl⟩
    exact ⟨scores, hscores, latest, hlatest, weights, hweights, rfl⟩

/-- The weights of an allocation are shares of scores, put in order. -/
theorem exists_weights (h : g.allocate c settings t = .ok a) :
    ∃ latest weights, normalize latest = .ok weights ∧ a.weights.Perm weights := by
  obtain ⟨_, latest, weights, -, -, hweights, rfl⟩ := allocate_eq_ok.mp h
  exact ⟨latest, weights, hweights, Asset.sortEntries_perm weights⟩

/-- The scores come in the order of the assets, however the client lists them. -/
theorem assets_of_scoreAssets (hassets : assets.Nodup)
    {scores : List (Asset × AssetScore α)} (h : g.scoreAssets c settings t assets = .ok scores) :
    scores.map (·.1) = Asset.sort assets := by
  obtain ⟨_, -, h⟩ := bind_eq_ok.mp h
  obtain ⟨found, hfound, h⟩ := bind_eq_ok.mp h
  obtain rfl := pure_eq_ok.mp h
  have hkeys : found.map (·.1) = (Asset.sort assets).map id :=
    map_fst_of_mapM (fun asset e he ↦ (keyed_eq_ok.mp he).1) hfound
  rw [List.map_id] at hkeys
  have hnodup : (found.map (·.1)).Nodup := by
    rw [hkeys]
    exact (Asset.sort_perm assets).nodup_iff.mpr hassets
  have hsame (a b : Asset) : (a == b) = true ↔ id a = id b := beq_iff_eq
  rw [Entries.ofList_eq_self (Entries.pairwise_of_nodup hsame hnodup), hkeys]

/-- The assets of an allocation are the universe. -/
theorem assets_of_allocate (hassets : (c.assets.map (·.2)).Nodup)
    (h : g.allocate c settings t = .ok a) : a.weights.map (·.1) = c.sortedAssets := by
  obtain ⟨scores, latest, weights, hscores, hlatest, hweights, rfl⟩ := allocate_eq_ok.mp h
  have hsorted : c.sortedAssets.Nodup := (Asset.sort_perm _).nodup_iff.mpr hassets
  have hlast : latest.map (·.1) = scores.map (·.1) := by
    refine map_fst_of_mapM (fun (asset, s) e he ↦ ?_) hlatest
    simp only [latestScore] at he
    split at he
    · obtain rfl := Except.ok.inj he
      rfl
    · cases he
  have hkeys : weights.map (·.1) = c.sortedAssets := by
    rw [assets_of_normalize hweights, hlast, assets_of_scoreAssets hsorted hscores]
    exact Asset.sort_sort _
  rw [Allocation.ofWeights_of_pairwise, hkeys]
  rw [hkeys]
  exact Asset.pairwise_sort _

/-- The weights over assets that are in the order of their symbols. -/
def weightsOver (g : Graph) (c : Client α) (settings : Settings) (t : Option Instant)
    (assets : List Asset) : Except AllocationError (List (Asset × α)) := do
  (settings.checkPool assets.length).mapError .pool
  let scores ← assets.mapM fun asset ↦
    ((g.evaluate c asset t).result.map fun s ↦ (asset, s)).mapError .evaluation
  let latest ← (Entries.ofList (· == ·) scores).mapM fun (asset, s) ↦ latestScore t asset s
  (normalize latest).mapError (.weights t)

/-- Over assets in order an allocation has nothing left to sort, so its weights can be computed. -/
theorem allocate_of_weightsOver (hassets : c.assets.map (·.2) = assets)
    (hsorted : assets.Pairwise fun a b ↦ Asset.le a b = true) {weights : List (Asset × α)}
    (hkeys : weights.map (·.1) = assets) (h : g.weightsOver c settings t assets = .ok weights) :
    g.allocate c settings t = .ok ⟨t, weights⟩ := by
  have hsort := Asset.sort_of_pairwise hsorted
  obtain ⟨_, hpool, h⟩ := bind_eq_ok.mp h
  obtain ⟨scores, hscores, h⟩ := bind_eq_ok.mp h
  obtain ⟨latest, hlatest, h⟩ := bind_eq_ok.mp h
  have hscored : g.scoreAssets c settings t c.sortedAssets =
      .ok (Entries.ofList (· == ·) scores) := by
    rw [Client.sortedAssets, hassets, hsort, scoreAssets, hsort]
    exact bind_eq_ok.mpr ⟨_, hpool, bind_eq_ok.mpr ⟨_, hscores, rfl⟩⟩
  refine allocate_eq_ok.mpr ⟨_, _, _, hscored, hlatest, mapError_eq_ok.mp h, ?_⟩
  rw [Allocation.ofWeights_of_pairwise (hkeys ▸ hsorted)]

end Graph

end ScorePortfolio

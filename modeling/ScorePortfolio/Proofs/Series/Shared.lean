import ScorePortfolio.Proofs.Series.Increasing
import ScorePortfolio.Series.Shared

/-!
# Shared moments of increasing series

The walk along two increasing lists finds each point of the first whose moment the second has too,
with both values, in order.  Restricting both lists to the moments up to a given one restricts what
they share.
-/

namespace ScorePortfolio

variable {β γ : Type} {ps : List (Instant × β)} {qs : List (Instant × γ)}

/-! ## The walk -/

/-- Earlier moments are of no account to a look-up. -/
theorem lookup_dropWhile {t u : Instant} (h : t ≤ u) :
    (qs.dropWhile (·.1 < t)).lookup u = qs.lookup u := by
  induction qs with
  | nil => rfl
  | cons q qs ih =>
    by_cases hq : q.1 < t
    · have hne : u ≠ q.1 := (Instant.ne_of_lt (Instant.lt_of_lt_of_le hq h)).symm
      rw [List.dropWhile_cons_of_pos (by simpa using hq), ih, List.lookup_cons,
        beq_false_of_ne hne]
    · rw [List.dropWhile_cons_of_neg (by simpa using hq)]

theorem le_of_dropWhile {t u : Instant} {y : γ} {rest : List (Instant × γ)}
    (h : qs.dropWhile (·.1 < t) = (u, y) :: rest) : t ≤ u := by
  have hhead := List.head?_dropWhile_not (fun q : Instant × γ ↦ decide (q.1 < t)) qs
  rw [h] at hhead
  exact Instant.not_lt.mp (by simpa using hhead)

theorem lookup_eq_none_of_lt {t : Instant} (h : ∀ q ∈ qs, t < q.1) : qs.lookup t = none := by
  rw [List.lookup_eq_none_iff]
  intro q hq
  simpa using Instant.ne_of_lt (h q hq)

theorem filterMap_lookup_congr {qs' : List (Instant × γ)}
    (h : ∀ p ∈ ps, qs.lookup p.1 = qs'.lookup p.1) :
    (ps.filterMap fun p ↦ (qs.lookup p.1).map fun y ↦ (p.1, p.2, y)) =
      ps.filterMap fun p ↦ (qs'.lookup p.1).map fun y ↦ (p.1, p.2, y) :=
  List.filterMap_congr fun p hp ↦ by rw [h p hp]

/-- The shared points are those of the first list whose moment the second list has. -/
theorem sharedPoints_eq_filterMap (hps : ps.Pairwise (·.1 < ·.1)) (hqs : qs.Pairwise (·.1 < ·.1)) :
    sharedPoints ps qs = ps.filterMap fun p ↦ (qs.lookup p.1).map fun y ↦ (p.1, p.2, y) := by
  induction ps generalizing qs with
  | nil => rfl
  | cons p ps ih =>
    obtain ⟨t, x⟩ := p
    obtain ⟨hlt, hps'⟩ := List.pairwise_cons.mp hps
    -- items before `t` are of no use to `t` and to what follows
    have hdrop : ∀ p ∈ (t, x) :: ps, qs.lookup p.1 = (qs.dropWhile (·.1 < t)).lookup p.1 := by
      intro p hp
      refine (lookup_dropWhile ?_).symm
      rcases List.mem_cons.mp hp with rfl | hp
      · exact Instant.le_refl t
      · exact Instant.le_of_lt (hlt p hp)
    have hsorted := hqs.sublist (List.dropWhile_sublist fun q : Instant × γ ↦ decide (q.1 < t))
    rw [sharedPoints, filterMap_lookup_congr hdrop]
    cases hrest : qs.dropWhile (·.1 < t) with
    | nil => simp
    | cons q rest =>
      obtain ⟨u, y⟩ := q
      rw [hrest] at hsorted
      obtain ⟨hlt', hrest'⟩ := List.pairwise_cons.mp hsorted
      by_cases hut : u = t
      · subst hut
        have htail : ∀ p ∈ ps, ((u, y) :: rest).lookup p.1 = rest.lookup p.1 := by
          intro p hp
          rw [List.lookup_cons, beq_false_of_ne (Instant.ne_of_lt (hlt p hp)).symm]
        simp only [if_true, List.filterMap_cons, List.lookup_cons_self, Option.map_some,
          ih hps' hrest']
        rw [filterMap_lookup_congr htail]
      · have htu : t < u := Instant.lt_of_le_of_ne (le_of_dropWhile hrest) (Ne.symm hut)
        have hafter : ∀ q ∈ (u, y) :: rest, t < q.1 := by
          intro q hq
          rcases List.mem_cons.mp hq with rfl | hq
          · exact htu
          · exact Instant.lt_trans htu (hlt' q hq)
        simp only [hut, if_false, List.filterMap_cons, lookup_eq_none_of_lt hafter,
          Option.map_none, ih hps' hsorted]

/-- The walk along both lists finds the moments that are in both, with both values. -/
theorem mem_sharedPoints (hps : ps.Pairwise (·.1 < ·.1)) (hqs : qs.Pairwise (·.1 < ·.1))
    {t : Instant} {x : β} {y : γ} :
    (t, x, y) ∈ sharedPoints ps qs ↔ (t, x) ∈ ps ∧ (t, y) ∈ qs := by
  rw [sharedPoints_eq_filterMap hps hqs, List.mem_filterMap]
  constructor
  · rintro ⟨p, hp, h⟩
    obtain ⟨y', hy, h⟩ := Option.map_eq_some_iff.mp h
    obtain ⟨rfl, rfl, rfl⟩ : p.1 = t ∧ p.2 = x ∧ y' = y := by simpa using h
    exact ⟨hp, (lookup_eq_some hqs).mp hy⟩
  · rintro ⟨hp, hq⟩
    exact ⟨(t, x), hp, by rw [(lookup_eq_some hqs).mpr hq, Option.map_some]⟩

/-- It finds them in increasing order. -/
theorem sharedPoints_pairwise (hps : ps.Pairwise (·.1 < ·.1)) (hqs : qs.Pairwise (·.1 < ·.1)) :
    (sharedPoints ps qs).Pairwise (·.1 < ·.1) := by
  rw [sharedPoints_eq_filterMap hps hqs, List.pairwise_filterMap]
  refine hps.imp fun {p q} hlt r hr r' hr' ↦ ?_
  obtain ⟨_, -, rfl⟩ := Option.map_eq_some_iff.mp hr
  obtain ⟨_, -, rfl⟩ := Option.map_eq_some_iff.mp hr'
  exact hlt

/-- What two lists share up to a moment is shared by their points up to it. -/
theorem sharedPoints_filter (hps : ps.Pairwise (·.1 < ·.1)) (hqs : qs.Pairwise (·.1 < ·.1))
    (t : Instant) :
    sharedPoints (ps.filter (·.1 ≤ t)) (qs.filter (·.1 ≤ t)) =
      (sharedPoints ps qs).filter (·.1 ≤ t) := by
  rw [sharedPoints_eq_filterMap (hps.filter _) (hqs.filter _), sharedPoints_eq_filterMap hps hqs,
    List.filterMap_filter, List.filter_filterMap]
  refine List.filterMap_congr fun p hp ↦ ?_
  by_cases hle : p.1 ≤ t
  · have hlookup : (qs.filter (·.1 ≤ t)).lookup p.1 = qs.lookup p.1 := by
      refine Option.ext fun y ↦ ?_
      rw [lookup_eq_some (hqs.filter _), lookup_eq_some hqs, List.mem_filter]
      simp [hle]
    cases hy : qs.lookup p.1 <;> simp [Option.filter, hle, hlookup, hy]
  · cases hy : qs.lookup p.1 <;> simp [Option.filter, hle]

end ScorePortfolio

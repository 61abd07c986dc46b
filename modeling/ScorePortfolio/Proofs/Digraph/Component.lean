import ScorePortfolio.Proofs.Digraph.Basic
import Mathlib.Data.List.Perm.Basic
import Mathlib.SetTheory.Cardinal.Finite

/-!
# The components of a digraph

The component of a vertex consists of the vertices linked to it, and the components partition the
vertices: each is the component of a representative, no two representatives are linked, and every
vertex is linked to one of them.
-/

namespace ScorePortfolio.Digraph

open Relation

variable {ν : Type} {g : Digraph ν}

/-! ## One step -/

/-- What holds of the vertices seen and those on the stack, at each step: every vertex seen is
linked to the start, and all neighbours of one that was visited are seen. -/
structure Exploring (g : Digraph ν) (start : ν) (seen stack : List ν) : Prop where
  nodup : seen.Nodup
  start_mem : start ∈ seen
  linked : ∀ v ∈ seen, g.Linked start v
  stack_sub : ∀ v ∈ stack, v ∈ seen
  closed : ∀ v ∈ seen, v ∉ stack → ∀ w, g.Joined v w → w ∈ seen

/-- The walk starts with its first vertex seen and on the stack. -/
theorem exploring_start (v : ν) : g.Exploring v [v] [v] where
  nodup := List.nodup_singleton v
  start_mem := List.mem_singleton.mpr rfl
  linked _ hw := List.mem_singleton.mp hw ▸ .refl
  stack_sub _ hw := hw
  closed _ hw hout := absurd hw hout

theorem Exploring.seen_length_le {start : ν} {seen stack : List ν} (hg : g.WellFormed)
    (hstart : start ∈ g.vertices) (h : g.Exploring start seen stack) :
    seen.length ≤ g.vertices.length := by
  have hsub : seen ⊆ g.vertices := fun v hv ↦ hg.mem_of_linked hstart (h.linked v hv)
  exact (List.subperm_of_subset h.nodup hsub).length_le

variable [DecidableEq ν]

/-- Visiting the vertex on top of the stack keeps the invariant. -/
theorem Exploring.step {start v : ν} {seen stack new : List ν}
    (h : g.Exploring start seen (v :: stack))
    (hnew : new = ((g.neighbours v).filter (· ∉ seen)).eraseDups) :
    g.Exploring start (seen ++ new) (new ++ stack) := by
  have hmem : ∀ w, w ∈ new ↔ g.Joined v w ∧ w ∉ seen := by simp [hnew]
  have hv : v ∈ seen := h.stack_sub v List.mem_cons_self
  refine ⟨?_, List.mem_append_left _ h.start_mem, fun w hw ↦ ?_, fun w hw ↦ ?_,
    fun u hu hout w hj ↦ ?_⟩
  · refine List.Nodup.append h.nodup (hnew ▸ nodup_eraseDups _) fun w hw hn ↦ ?_
    exact ((hmem w).mp hn).2 hw
  · rcases List.mem_append.mp hw with hw | hw
    · exact h.linked w hw
    · exact (h.linked v hv).tail ((hmem w).mp hw).1
  · rcases List.mem_append.mp hw with hw | hw
    · exact List.mem_append_right _ hw
    · exact List.mem_append_left _ (h.stack_sub w (List.mem_cons_of_mem _ hw))
  · obtain ⟨hunew, hustack⟩ := not_or.mp fun h ↦ hout (List.mem_append.mpr h)
    have huseen : u ∈ seen := (List.mem_append.mp hu).resolve_right hunew
    by_cases hw : w ∈ seen
    · exact List.mem_append_left _ hw
    -- the only vertex seen, off the stack and with unseen neighbours is the one just visited
    · by_cases huv : u = v
      · exact List.mem_append_right _ ((hmem w).mpr ⟨huv ▸ hj, hw⟩)
      · exact absurd (h.closed u huseen (by simp [huv, hustack]) w hj) hw

/-! ## A whole run -/

/-- With a step for each vertex on the stack or not yet seen, the stack runs dry. -/
theorem Exploring.explore (hg : g.WellFormed) {start : ν} (hstart : start ∈ g.vertices) {n : Nat}
    {seen stack : List ν} (h : g.Exploring start seen stack)
    (hn : n + seen.length = g.vertices.length + stack.length) :
    g.Exploring start (g.explore n seen stack) [] := by
  induction n generalizing seen stack with
  | zero =>
    have hlen := h.seen_length_le hg hstart
    have hstack : stack = [] := List.eq_nil_of_length_eq_zero (by omega)
    simpa [Digraph.explore, hstack] using h
  | succ n ih =>
    cases stack with
    | nil => simpa [Digraph.explore] using h
    | cons v stack =>
      refine ih (h.step rfl) ?_
      simp only [List.length_append, List.length_cons] at hn ⊢
      omega

theorem exploring_component (hg : g.WellFormed) {v : ν} (hv : v ∈ g.vertices) :
    g.Exploring v (g.component v) [] :=
  (exploring_start v).explore hg hv (by simp)

/-- The component of a vertex consists of the vertices linked to it. -/
theorem mem_component (hg : g.WellFormed) {v w : ν} (hv : v ∈ g.vertices) :
    w ∈ g.component v ↔ g.Linked v w := by
  have h := exploring_component hg hv
  refine ⟨h.linked w, fun hvw ↦ ?_⟩
  induction hvw with
  | refl => exact h.start_mem
  | tail _ hj ih => exact h.closed _ ih (by simp) _ hj

/-! ## Representatives -/

/-- Vertices that represent the components of others: among those and beyond a part already seen,
no two of them linked, and each of the others linked to one of them or seen. -/
structure Represents (g : Digraph ν) (seen vs reps : List ν) : Prop where
  sub : ∀ r ∈ reps, r ∈ vs ∧ r ∉ seen
  apart : reps.Pairwise fun r r' ↦ ¬ g.Linked r r'
  covered : ∀ v ∈ vs, v ∈ seen ∨ ∃ r ∈ reps, g.Linked r v

/-- Each component is that of a representative, as long as the part already seen is made of whole
components. -/
theorem componentsFrom_eq_map (hg : g.WellFormed) {vs : List ν} (hvs : vs ⊆ g.vertices)
    {seen : List ν} (hseen : ∀ v ∈ seen, ∀ w, g.Linked v w → w ∈ seen) :
    ∃ reps, g.componentsFrom seen vs = reps.map g.component ∧ g.Represents seen vs reps := by
  induction vs generalizing seen with
  | nil => exact ⟨[], rfl, by simp, .nil, by simp⟩
  | cons v vs ih =>
    obtain ⟨hv, hvs⟩ := List.cons_subset.mp hvs
    by_cases hin : v ∈ seen
    · obtain ⟨reps, heq, hreps⟩ := ih hvs hseen
      refine ⟨reps, by simp [componentsFrom, hin, heq], ?_, hreps.apart, ?_⟩
      · exact fun r hr ↦ ⟨List.mem_cons_of_mem _ (hreps.sub r hr).1, (hreps.sub r hr).2⟩
      · rintro w (_ | ⟨_, hw⟩)
        · exact .inl hin
        · exact hreps.covered w hw
    · have hmem : ∀ w, w ∈ seen ++ g.component v ↔ w ∈ seen ∨ g.Linked v w := fun w ↦ by
        rw [List.mem_append, mem_component hg hv]
      have hwhole : ∀ u ∈ seen ++ g.component v, ∀ w, g.Linked u w →
          w ∈ seen ++ g.component v := by
        intro u hu w huw
        rw [hmem] at hu ⊢
        exact hu.imp (hseen u · w huw) (·.trans huw)
      obtain ⟨reps, heq, hreps⟩ := ih hvs hwhole
      refine ⟨v :: reps, by simp [componentsFrom, hin, heq], ?_, ?_, ?_⟩
      · rintro r (_ | ⟨_, hr⟩)
        · exact ⟨List.mem_cons_self, hin⟩
        · obtain ⟨hrvs, hrseen⟩ := hreps.sub r hr
          exact ⟨List.mem_cons_of_mem _ hrvs, fun h ↦ hrseen ((hmem r).mpr (.inl h))⟩
      · refine List.pairwise_cons.mpr ⟨fun r hr hlink ↦ ?_, hreps.apart⟩
        exact (hreps.sub r hr).2 ((hmem r).mpr (.inr hlink))
      · rintro w (_ | ⟨_, hw⟩)
        · exact .inr ⟨v, List.mem_cons_self, .refl⟩
        · rcases hreps.covered w hw with hw | ⟨r, hr, hlink⟩
          · exact ((hmem w).mp hw).imp id fun h ↦ ⟨v, List.mem_cons_self, h⟩
          · exact .inr ⟨r, List.mem_cons_of_mem _ hr, hlink⟩

/-- The components are those of representatives of all vertices. -/
theorem components_eq_map (hg : g.WellFormed) :
    ∃ reps, g.components = reps.map g.component ∧ g.Represents [] g.vertices reps :=
  componentsFrom_eq_map hg (List.Subset.refl _) (by simp)

/-- There is one component if there is a vertex and any two are linked. -/
theorem components_length_eq_one (hg : g.WellFormed) (hne : g.vertices ≠ []) :
    g.components.length = 1 ↔ ∀ v ∈ g.vertices, ∀ w ∈ g.vertices, g.Linked v w := by
  obtain ⟨reps, heq, hreps⟩ := components_eq_map hg
  rw [heq, List.length_map]
  constructor
  · intro hlen v hv w hw
    obtain ⟨r, rfl⟩ := List.length_eq_one_iff.mp hlen
    have hr : ∀ u ∈ g.vertices, g.Linked r u := by simpa using hreps.covered
    exact (hr v hv).symm.trans (hr w hw)
  · intro h
    match reps, hreps with
    | [], hreps =>
      obtain ⟨v, hv⟩ := List.exists_mem_of_ne_nil _ hne
      simpa using hreps.covered v hv
    | [r], _ => rfl
    | r :: r' :: _, hreps =>
      have hr := (hreps.sub r (by simp)).1
      have hr' := (hreps.sub r' (by simp)).1
      exact absurd (h r hr r' hr') ((List.pairwise_cons.mp hreps.apart).1 r' (by simp))

/-- Where being linked makes classes of the vertices, there are as many as components. -/
theorem card_quotient (hg : g.WellFormed) {p : ν → Prop} (hp : ∀ v, p v ↔ v ∈ g.vertices)
    (r : Setoid {v // p v}) (hr : ∀ a b, r a b ↔ g.Linked a.1 b.1) :
    Nat.card (Quotient r) = g.components.length := by
  obtain ⟨reps, heq, hreps⟩ := components_eq_map hg
  have hmem (i : Fin reps.length) : p reps[i] :=
    (hp _).mpr (hreps.sub _ (List.getElem_mem i.isLt)).1
  have happart {i j : Fin reps.length} (hij : i < j) : ¬ g.Linked reps[i] reps[j] :=
    List.pairwise_iff_getElem.mp hreps.apart i j i.isLt j.isLt hij
  -- each class is that of one representative
  have hbij : Function.Bijective fun i : Fin reps.length ↦ Quotient.mk r ⟨reps[i], hmem i⟩ := by
    constructor
    · intro i j hij
      have hlink : g.Linked reps[i] reps[j] := (hr _ _).mp (Quotient.exact hij)
      rcases lt_trichotomy i j with hlt | heq | hlt
      · exact absurd hlink (happart hlt)
      · exact heq
      · exact absurd hlink.symm (happart hlt)
    · rintro ⟨v, hv⟩
      obtain ⟨w, hw, hlink⟩ := (hreps.covered v ((hp v).mp hv)).resolve_left List.not_mem_nil
      obtain ⟨i, hi, rfl⟩ := List.getElem_of_mem hw
      exact ⟨⟨i, hi⟩, Quotient.sound ((hr _ _).mpr hlink)⟩
  rw [heq, List.length_map, ← Nat.card_eq_of_bijective _ hbij, Nat.card_fin]

end ScorePortfolio.Digraph

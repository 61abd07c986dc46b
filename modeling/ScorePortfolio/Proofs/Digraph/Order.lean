import ScorePortfolio.Proofs.Digraph.Basic
import Mathlib.Data.List.Perm.Basic

/-!
# The order of a digraph

The order consists of the vertices that no cycle leads to, each once, and every edge between them
leads forward.  So a digraph without cycles is ordered completely, and the vertices left out are
those on a cycle or after one.
-/

namespace ScorePortfolio.Digraph

open Relation

variable {ν : Type} [DecidableEq ν] {g : Digraph ν}

/-! ## One step -/

/-- What holds of the vertices done and queued, at each step: together they are the vertices whose
predecessors are done, and the done ones stand in an order in which every edge leads forward. -/
structure Settling (g : Digraph ν) (done queue : List ν) : Prop where
  nodup : (done ++ queue).Nodup
  mem_iff : ∀ v, v ∈ done ++ queue ↔ v ∈ g.vertices ∧ ∀ u, g.Adj u v → u ∈ done
  forward : ∀ u v, g.Adj u v → v ∈ done → u ∈ done ∧ done.idxOf u < done.idxOf v

@[simp] theorem isReady_iff {done : List ν} {v : ν} :
    g.isReady done v = true ↔ ∀ u, g.Adj u v → u ∈ done := by
  simp [isReady]

@[simp] theorem mem_released {done : List ν} {v w : ν} :
    w ∈ g.released done v ↔ g.Adj v w ∧ ∀ u, g.Adj u w → u ∈ done := by
  simp [released]

/-- The vertices without predecessors are ready from the start. -/
theorem settling_sources (hg : g.WellFormed) : g.Settling [] g.sources where
  nodup := hg.vertices_nodup.filter _
  mem_iff v := by simp [sources, List.eq_nil_iff_forall_not_mem]
  forward u v _ h := by simp at h

/-- Doing the vertex at the head of the queue keeps the invariant. -/
theorem Settling.step {done queue : List ν} {v : ν} (hg : g.WellFormed)
    (h : g.Settling done (v :: queue)) :
    g.Settling (done ++ [v]) (queue ++ g.released (done ++ [v]) v) := by
  have hsame : ∀ w, w ∈ done ++ [v] ++ queue ↔ w ∈ done ++ v :: queue := by simp
  have hvdone : v ∉ done := fun hv ↦
    List.disjoint_of_nodup_append h.nodup hv List.mem_cons_self
  have hvready : ∀ u, g.Adj u v → u ∈ done := ((h.mem_iff v).mp (by simp)).2
  refine ⟨?_, fun w ↦ ?_, fun u w hadj hw ↦ ?_⟩
  · rw [← List.append_assoc]
    refine List.Nodup.append (by simpa using h.nodup)
      ((hg.successors_nodup v).filter _) fun w hw hrel ↦ ?_
    -- a released vertex waited for `v`, so it was neither done nor queued before
    exact hvdone (((h.mem_iff w).mp ((hsame w).mp hw)).2 v (mem_released.mp hrel).1)
  · rw [← List.append_assoc, List.mem_append, hsame, h.mem_iff, mem_released]
    constructor
    · rintro (⟨hmem, hready⟩ | ⟨hadj, hready⟩)
      · exact ⟨hmem, fun u hu ↦ List.mem_append_left _ (hready u hu)⟩
      · exact ⟨hg.target_mem hadj, hready⟩
    · rintro ⟨hmem, hready⟩
      by_cases hadj : g.Adj v w
      · exact .inr ⟨hadj, hready⟩
      · refine .inl ⟨hmem, fun u hu ↦ ?_⟩
        have hne : u ≠ v := fun he ↦ hadj (he ▸ hu)
        simpa [hne] using hready u hu
  · by_cases hwdone : w ∈ done
    · obtain ⟨hu, hlt⟩ := h.forward u w hadj hwdone
      refine ⟨List.mem_append_left _ hu, ?_⟩
      rwa [List.idxOf_append_of_mem hu, List.idxOf_append_of_mem hwdone]
    · have hwv : w = v := by simpa [hwdone] using hw
      subst hwv
      have hu := hvready u hadj
      refine ⟨List.mem_append_left _ hu, ?_⟩
      rw [List.idxOf_append_of_mem hu, List.idxOf_append_of_notMem hwdone]
      exact Nat.lt_of_lt_of_le (List.idxOf_lt_length_of_mem hu) (Nat.le_add_right _ _)

/-! ## A whole run -/

theorem Settling.length_le {done queue : List ν} (h : g.Settling done queue) :
    done.length + queue.length ≤ g.vertices.length := by
  have hsub : done ++ queue ⊆ g.vertices := fun v hv ↦ ((h.mem_iff v).mp hv).1
  simpa using (List.subperm_of_subset h.nodup hsub).length_le

/-- With a step for each vertex that is not done, the queue runs dry. -/
theorem Settling.settle (hg : g.WellFormed) {n : Nat} {done queue : List ν}
    (h : g.Settling done queue) (hn : n + done.length = g.vertices.length) :
    g.Settling (g.settle n done queue) [] := by
  induction n generalizing done queue with
  | zero =>
    have hlen := h.length_le
    have hq : queue = [] := List.eq_nil_of_length_eq_zero (by omega)
    simpa [Digraph.settle, hq] using h
  | succ n ih =>
    cases queue with
    | nil => simpa [Digraph.settle] using h
    | cons v queue => exact ih (h.step hg) (by simp; omega)

theorem settling_order (hg : g.WellFormed) : g.Settling g.order [] :=
  (settling_sources hg).settle hg (by simp)

theorem order_nodup (hg : g.WellFormed) : g.order.Nodup := by
  simpa using (settling_order hg).nodup

/-- A vertex is in the order if all its predecessors are. -/
theorem mem_order (hg : g.WellFormed) {v : ν} :
    v ∈ g.order ↔ v ∈ g.vertices ∧ ∀ u, g.Adj u v → u ∈ g.order := by
  simpa using (settling_order hg).mem_iff v

/-- An edge to a vertex of the order comes from an earlier one. -/
theorem order_forward (hg : g.WellFormed) {u v : ν} (h : g.Adj u v) (hv : v ∈ g.order) :
    u ∈ g.order ∧ g.order.idxOf u < g.order.idxOf v :=
  (settling_order hg).forward u v h hv

/-- All that a vertex in the order is reached from stands before it. -/
theorem order_forward_of_path (hg : g.WellFormed) {u v : ν} (h : TransGen g.Adj u v)
    (hv : v ∈ g.order) : u ∈ g.order ∧ g.order.idxOf u < g.order.idxOf v := by
  induction h with
  | single h => exact order_forward hg h hv
  | tail _ h ih =>
    obtain ⟨hb, hlt⟩ := order_forward hg h hv
    exact ⟨(ih hb).1, (ih hb).2.trans hlt⟩

/-! ## Cycles -/

/-- A vertex to which no cycle leads is in the order. -/
theorem mem_order_of_no_cycle (hg : g.WellFormed) {v : ν} (hv : v ∈ g.vertices)
    (h : ∀ u, ReflTransGen g.Adj u v → ¬ TransGen g.Adj u u) : v ∈ g.order := by
  -- a vertex before `v` is in the order if those before it are
  suffices hbefore : ∀ a : {u // u ∈ g.vertices}, ReflTransGen g.Adj a.1 v → a.1 ∈ g.order from
    hbefore ⟨v, hv⟩ .refl
  intro a
  induction a using (wellFounded_of_no_cycle h).induction with
  | _ a ih =>
    intro hav
    refine (mem_order hg).mpr ⟨a.2, ?_⟩
    intro u hu
    exact ih ⟨u, hg.source_mem hu⟩ ⟨.single hu, hav⟩ (.head hu hav)

/-- The vertices left out are those on a cycle or after one. -/
theorem mem_stuck (hg : g.WellFormed) {v : ν} :
    v ∈ g.stuck ↔
      v ∈ g.vertices ∧ ∃ u, TransGen g.Adj u u ∧ ReflTransGen g.Adj u v := by
  simp only [stuck, List.mem_filter, decide_eq_true_eq]
  refine and_congr_right fun hv ↦ ⟨fun hout ↦ ?_, ?_⟩
  · by_contra hno
    push Not at hno
    exact hout (mem_order_of_no_cycle hg hv fun u huv hcyc ↦ hno u hcyc huv)
  · rintro ⟨u, hcyc, huv⟩ hin
    have hu : u ∈ g.order := by
      rcases reflTransGen_iff_eq_or_transGen.mp huv with rfl | huv
      · exact hin
      · exact (order_forward_of_path hg huv hin).1
    exact lt_irrefl _ (order_forward_of_path hg hcyc hu).2

/-- The order leaves no vertex out exactly if no path leads back to its start. -/
theorem stuck_eq_nil (hg : g.WellFormed) : g.stuck = [] ↔ ∀ v, ¬ TransGen g.Adj v v := by
  rw [List.eq_nil_iff_forall_not_mem]
  constructor
  · intro h v hcyc
    obtain ⟨w, hvw, -⟩ := TransGen.head'_iff.mp hcyc
    exact h v ((mem_stuck hg).mpr ⟨hg.source_mem hvw, v, hcyc, .refl⟩)
  · intro h v hv
    obtain ⟨-, u, hcyc, -⟩ := (mem_stuck hg).mp hv
    exact h u hcyc

/-- If nothing is left out, the order lists the vertices. -/
theorem order_perm (hg : g.WellFormed) (h : g.stuck = []) : g.order.Perm g.vertices := by
  refine (List.perm_ext_iff_of_nodup (order_nodup hg) hg.vertices_nodup).mpr fun v ↦ ?_
  refine ⟨fun hv ↦ ((mem_order hg).mp hv).1, fun hv ↦ ?_⟩
  by_contra hout
  have hstuck : v ∈ g.stuck := List.mem_filter.mpr ⟨hv, by simpa using hout⟩
  simp [h] at hstuck

end ScorePortfolio.Digraph

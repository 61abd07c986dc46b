import ScorePortfolio.Graph.Digraph
import Mathlib.Logic.Relation
import Mathlib.Data.Fintype.Card
import Mathlib.Data.List.Nodup
import Mathlib.Data.Set.Finite.Basic

/-!
# Digraphs as relations

A digraph is read here as the relation of its edges, and its computations are judged by paths: a
directed path is a chain of edges, and two vertices are linked if a chain of edges leads from one to
the other when directions do not count.
-/

namespace ScorePortfolio.Digraph

open Relation

variable {ν : Type}

/-- An edge leads from the first vertex to the second. -/
def Adj (g : Digraph ν) (a b : ν) : Prop := (a, b) ∈ g.edges

/-- An edge joins the two vertices, in either direction. -/
def Joined (g : Digraph ν) (a b : ν) : Prop := g.Adj a b ∨ g.Adj b a

/-- A path joins the two vertices when directions do not count. -/
def Linked (g : Digraph ν) : ν → ν → Prop := ReflTransGen g.Joined

/-- Vertices and edges occur once each, and every edge joins vertices. -/
structure WellFormed (g : Digraph ν) : Prop where
  vertices_nodup : g.vertices.Nodup
  edges_nodup : g.edges.Nodup
  source_mem : ∀ {a b : ν}, g.Adj a b → a ∈ g.vertices
  target_mem : ∀ {a b : ν}, g.Adj a b → b ∈ g.vertices

theorem Joined.symm {g : Digraph ν} {a b : ν} (h : g.Joined a b) : g.Joined b a := Or.symm h

theorem Linked.symm {g : Digraph ν} {a b : ν} (h : g.Linked a b) : g.Linked b a := by
  induction h with
  | refl => exact .refl
  | tail _ hj ih => exact .head hj.symm ih

theorem WellFormed.mem_of_joined {g : Digraph ν} (hg : g.WellFormed) {a b : ν}
    (h : g.Joined a b) : b ∈ g.vertices :=
  h.elim hg.target_mem hg.source_mem

/-- Whatever is linked to a vertex is one. -/
theorem WellFormed.mem_of_linked {g : Digraph ν} (hg : g.WellFormed) {a b : ν}
    (ha : a ∈ g.vertices) (h : g.Linked a b) : b ∈ g.vertices := by
  induction h with
  | refl => exact ha
  | tail _ hj _ => exact hg.mem_of_joined hj

/-- Where no cycle leads to a vertex, the paths to it go back finitely far. -/
theorem wellFounded_of_no_cycle {g : Digraph ν} {v : ν}
    (h : ∀ u, ReflTransGen g.Adj u v → ¬ TransGen g.Adj u u) :
    WellFounded fun a b : {u // u ∈ g.vertices} ↦
      TransGen g.Adj a.1 b.1 ∧ ReflTransGen g.Adj b.1 v := by
  have : Finite {u // u ∈ g.vertices} := g.vertices.finite_toSet
  refine @Finite.wellFounded_of_trans_of_irrefl _ _ _ ⟨?_⟩ ⟨?_⟩
  · intro a b c hab hbc
    exact ⟨hab.1.trans hbc.1, hbc.2⟩
  · intro a ha
    exact h a.1 ha.2 ha.1

/-- Items told apart like their images lose the same repetitions. -/
theorem eraseDupsBy_map {μ : Type} {r : ν → ν → Bool} {r' : μ → μ → Bool} {f : ν → μ}
    (h : ∀ a b, r' (f a) (f b) = r a b) (l : List ν) :
    (l.map f).eraseDupsBy r' = (l.eraseDupsBy r).map f := by
  induction hn : l.length using Nat.strongRecOn generalizing l with
  | _ n ih =>
    cases l with
    | nil => rfl
    | cons a l =>
      have hlt : (l.filter fun b ↦ r b a = false).length < n :=
        hn ▸ Nat.lt_succ_of_le (List.length_filter_le _ _)
      rw [List.map_cons, List.eraseDupsBy_cons, List.filter_map, List.eraseDupsBy_cons,
        List.map_cons, ← ih _ hlt _ rfl]
      simp only [Function.comp_def, h]

/-- Nothing is left twice when what occurs again is dropped. -/
theorem nodup_eraseDups [BEq ν] [LawfulBEq ν] (l : List ν) : l.eraseDups.Nodup := by
  induction hn : l.length using Nat.strongRecOn generalizing l with
  | _ n ih =>
    cases l with
    | nil => simp
    | cons a l =>
      have hlt : (l.filter fun b ↦ !b == a).length < n :=
        hn ▸ Nat.lt_succ_of_le (List.length_filter_le _ _)
      rw [List.eraseDups_cons]
      exact List.nodup_cons.mpr ⟨by simp [List.mem_eraseDups], ih _ hlt _ rfl⟩

variable [DecidableEq ν]

@[simp] theorem mem_successors {g : Digraph ν} {a b : ν} : b ∈ g.successors a ↔ g.Adj a b := by
  simp [successors, Adj]

@[simp] theorem mem_predecessors {g : Digraph ν} {a b : ν} :
    a ∈ g.predecessors b ↔ g.Adj a b := by
  simp [predecessors, Adj]

@[simp] theorem mem_neighbours {g : Digraph ν} {a b : ν} :
    b ∈ g.neighbours a ↔ g.Joined a b := by
  simp [neighbours, Joined]

/-- The edges from one vertex differ in their second vertex only. -/
theorem WellFormed.successors_nodup {g : Digraph ν} (hg : g.WellFormed) (v : ν) :
    (g.successors v).Nodup := by
  refine List.Nodup.map_on ?_ (hg.edges_nodup.filter _)
  intro e he e' he' h
  have h₁ : e.1 = v := by simpa using (List.mem_filter.mp he).2
  have h₁' : e'.1 = v := by simpa using (List.mem_filter.mp he').2
  exact Prod.ext (h₁.trans h₁'.symm) h

end ScorePortfolio.Digraph

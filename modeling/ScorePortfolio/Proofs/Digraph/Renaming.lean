import ScorePortfolio.Proofs.Digraph.Basic

/-!
# Digraphs with other vertices

Vertices are only ever compared with each other.  So if each vertex is replaced by one of its own,
in the vertices and in the edges, both computations go the same way, and their results are the old
ones with the vertices replaced.
-/

namespace ScorePortfolio.Digraph

variable {ν μ : Type} {f : ν → μ}

/-- The digraph with each vertex replaced by its image. -/
def map (f : ν → μ) (g : Digraph ν) : Digraph μ where
  vertices := g.vertices.map f
  edges := g.edges.map (Prod.map f f)

@[simp] theorem map_vertices (g : Digraph ν) : (g.map f).vertices = g.vertices.map f := rfl

@[simp] theorem map_edges (g : Digraph ν) : (g.map f).edges = g.edges.map (Prod.map f f) := rfl

theorem filter_map_of_comp {p : μ → Bool} {q : ν → Bool} (h : ∀ v, p (f v) = q v) (l : List ν) :
    (l.map f).filter p = (l.filter q).map f := by
  obtain rfl : p ∘ f = q := funext h
  exact List.filter_map

variable [DecidableEq ν] [DecidableEq μ]

section Injective

variable (hf : Function.Injective f) (g : Digraph ν)

include hf

/-- The successors of an image are the images of the successors. -/
theorem successors_map (v : ν) : (g.map f).successors (f v) = (g.successors v).map f := by
  have hfilter : (g.map f).edges.filter (·.1 = f v) =
      (g.edges.filter (·.1 = v)).map (Prod.map f f) :=
    filter_map_of_comp (fun e ↦ by simp [hf.eq_iff]) g.edges
  rw [successors, hfilter, List.map_map, successors, List.map_map]
  rfl

/-- So are the predecessors. -/
theorem predecessors_map (v : ν) : (g.map f).predecessors (f v) = (g.predecessors v).map f := by
  have hfilter : (g.map f).edges.filter (·.2 = f v) =
      (g.edges.filter (·.2 = v)).map (Prod.map f f) :=
    filter_map_of_comp (fun e ↦ by simp [hf.eq_iff]) g.edges
  rw [predecessors, hfilter, List.map_map, predecessors, List.map_map]
  rfl

theorem neighbours_map (v : ν) : (g.map f).neighbours (f v) = (g.neighbours v).map f := by
  rw [neighbours, successors_map hf, predecessors_map hf, ← List.map_append, neighbours]

/-! ## Order -/

/-- A vertex is ready exactly if its image is. -/
theorem isReady_map (done : List ν) (v : ν) :
    (g.map f).isReady (done.map f) (f v) = g.isReady done v := by
  have htest : (fun u ↦ decide (u ∈ done.map f)) ∘ f = fun u ↦ decide (u ∈ done) := by
    funext u
    simp only [Function.comp_apply, List.mem_map_of_injective hf]
  rw [isReady, predecessors_map hf, List.all_map, htest, isReady]

theorem released_map (done : List ν) (v : ν) :
    (g.map f).released (done.map f) (f v) = (g.released done v).map f := by
  rw [released, successors_map hf, released]
  exact filter_map_of_comp (g.isReady_map hf done) _

/-- The images are settled in the same order, step by step. -/
theorem settle_map (n : Nat) (done queue : List ν) :
    (g.map f).settle n (done.map f) (queue.map f) = (g.settle n done queue).map f := by
  induction n generalizing done queue with
  | zero => rfl
  | succ n ih =>
    cases queue with
    | nil => rfl
    | cons v queue =>
      have hdone : done.map f ++ [f v] = (done ++ [v]).map f := by simp
      rw [List.map_cons, settle, hdone, released_map hf, ← List.map_append, ih, settle]

theorem sources_map : (g.map f).sources = g.sources.map f := by
  refine filter_map_of_comp (fun v ↦ ?_) g.vertices
  rw [predecessors_map hf, List.isEmpty_map]

theorem order_map : (g.map f).order = g.order.map f := by
  rw [order, sources_map hf, map_vertices, List.length_map, order]
  exact g.settle_map hf _ [] _

theorem stuck_map : (g.map f).stuck = g.stuck.map f := by
  refine filter_map_of_comp (fun v ↦ ?_) g.vertices
  simp only [order_map hf, List.mem_map_of_injective hf]

/-! ## Components -/

/-- The walk through the images sees the images of what is seen, in the same order. -/
theorem explore_map (n : Nat) (seen stack : List ν) :
    (g.map f).explore n (seen.map f) (stack.map f) = (g.explore n seen stack).map f := by
  induction n generalizing seen stack with
  | zero => rfl
  | succ n ih =>
    cases stack with
    | nil => rfl
    | cons v stack =>
      have hnew : (((g.map f).neighbours (f v)).filter (· ∉ seen.map f)).eraseDups =
          (((g.neighbours v).filter (· ∉ seen)).eraseDups).map f := by
        rw [neighbours_map hf, filter_map_of_comp (q := (· ∉ seen))]
        · exact eraseDupsBy_map (fun a b ↦ by simp [hf.eq_iff]) _
        · intro u
          simp only [List.mem_map_of_injective hf]
      rw [List.map_cons, explore, hnew, ← List.map_append, ← List.map_append, ih, explore]

theorem component_map (v : ν) : (g.map f).component (f v) = (g.component v).map f := by
  rw [component, map_vertices, List.length_map, component]
  exact g.explore_map hf _ [v] [v]

/-- The components of the images are the images of the components. -/
theorem componentsFrom_map (seen vs : List ν) :
    (g.map f).componentsFrom (seen.map f) (vs.map f) =
      (g.componentsFrom seen vs).map (List.map f) := by
  induction vs generalizing seen with
  | nil => rfl
  | cons v vs ih =>
    rw [List.map_cons, componentsFrom, componentsFrom]
    simp only [List.mem_map_of_injective hf]
    split
    · exact ih seen
    · rw [component_map hf, ← List.map_append, ih, List.map_cons]

theorem components_map : (g.map f).components = g.components.map (List.map f) :=
  g.componentsFrom_map hf [] g.vertices

end Injective

end ScorePortfolio.Digraph

/-!
# Directed graphs

Finite directed graphs given by lists of vertices and edges, with the two computations on them that
turn a strategy into a sequence of steps: an order in which every edge leads forward, as far as
there is one, and the parts that hang together when the direction of edges does not count.  Both
walk the graph with a queue of vertices; the number of vertices bounds the steps, since no vertex is
queued twice.
-/

namespace ScorePortfolio

/-- A finite directed graph. -/
structure Digraph (ν : Type) where
  /-- The vertices. -/
  vertices : List ν
  /-- The edges, each from its first to its second vertex. -/
  edges : List (ν × ν)

namespace Digraph

variable {ν : Type} [DecidableEq ν]

/-- The vertices that edges from a vertex lead to. -/
def successors (g : Digraph ν) (v : ν) : List ν := (g.edges.filter (·.1 = v)).map (·.2)

/-- The vertices that edges to a vertex come from. -/
def predecessors (g : Digraph ν) (v : ν) : List ν := (g.edges.filter (·.2 = v)).map (·.1)

/-- The vertices joined to a vertex by an edge in either direction. -/
def neighbours (g : Digraph ν) (v : ν) : List ν := g.successors v ++ g.predecessors v

/-! ## Order -/

/-- Whether all predecessors of a vertex are done. -/
def isReady (g : Digraph ν) (done : List ν) (v : ν) : Bool := (g.predecessors v).all (· ∈ done)

/-- The vertices that become ready when a vertex is the latest one done. -/
def released (g : Digraph ν) (done : List ν) (v : ν) : List ν :=
  (g.successors v).filter (g.isReady done)

/-- The vertices done after a number of steps.  Each step does the vertex at the head of the queue,
and queues those that become ready. -/
def settle (g : Digraph ν) : Nat → List ν → List ν → List ν
  | 0, done, _ => done
  | _, done, [] => done
  | n + 1, done, v :: queue =>
    let done := done ++ [v]
    g.settle n done (queue ++ g.released done v)

/-- The vertices without predecessors. -/
def sources (g : Digraph ν) : List ν := g.vertices.filter fun v ↦ (g.predecessors v).isEmpty

/-- The vertices in an order in which every edge leads forward; those on a cycle or after one are
left out. -/
def order (g : Digraph ν) : List ν := g.settle g.vertices.length [] g.sources

/-- The vertices left out of the order. -/
def stuck (g : Digraph ν) : List ν :=
  let done := g.order
  g.vertices.filter (· ∉ done)

/-! ## Components -/

/-- The vertices seen after a number of steps.  Each step visits the vertex on top of the stack, and
sees its neighbours. -/
def explore (g : Digraph ν) : Nat → List ν → List ν → List ν
  | 0, seen, _ => seen
  | _, seen, [] => seen
  | n + 1, seen, v :: stack =>
    let new := ((g.neighbours v).filter (· ∉ seen)).eraseDups
    g.explore n (seen ++ new) (new ++ stack)

/-- The vertices that hang together with a vertex. -/
def component (g : Digraph ν) (v : ν) : List ν := g.explore g.vertices.length [v] [v]

/-- The components of the given vertices that are not seen yet. -/
def componentsFrom (g : Digraph ν) (seen : List ν) : List ν → List (List ν)
  | [] => []
  | v :: vs =>
    if v ∈ seen then g.componentsFrom seen vs
    else g.component v :: g.componentsFrom (seen ++ g.component v) vs

/-- The components of the graph. -/
def components (g : Digraph ν) : List (List ν) := g.componentsFrom [] g.vertices

end Digraph

end ScorePortfolio

import ScorePortfolio.Proofs.Graph.WellFormed

/-!
# What nodes hold

Positions are a matter of the order in which the nodes of a graph happen to stand.  Read back as
names, they leave what the strategy alone decides: a node holds the operation of its calculation,
the names that the operands refer to, and the numbers that they spell.
-/

namespace ScorePortfolio

/-- A step that reads its operands by name.  A position that no node has gives no name. -/
inductive Content where
  /-- Reads a field of the market, the default one if none is named. -/
  | query (name : Scalar) (field : Option String)
  /-- Combines a series with a number. -/
  | scalar (name : Scalar) (operation : Operation) (source : Option Scalar) (number : Float)
  /-- Combines two series. -/
  | series (name : Scalar) (operation : Operation) (left right : Option Scalar)
  /-- Averages a series over a moving window. -/
  | sma (name : Scalar) (source : Option Scalar) (window : Int)
  /-- Something that is no step. -/
  | foreign

namespace Graph

/-- The name of the node at a position. -/
def nameAt? (g : Graph) (position : Int) : Option Scalar :=
  ((position? g.length position).bind (g.nodes[·]?)).bind Node.name?

/-- What a node holds, its positions read back as names. -/
def content (g : Graph) : Node → Content
  | .query name field => .query name field
  | .scalar name operation source number => .scalar name operation (g.nameAt? source) number
  | .series name operation left right =>
    .series name operation (g.nameAt? left) (g.nameAt? right)
  | .sma name source window => .sma name (g.nameAt? source) window
  | .foreign => .foreign

/-- What the nodes hold, in order. -/
def contents (g : Graph) : List Content := g.nodes.map g.content

end Graph

/-! ## What a calculation says -/

namespace Calculation

/-- What the node of a calculation holds, whatever graph it stands in. -/
inductive HasContent (c : Calculation) (name : Scalar) : Content → Prop where
  | query {f} : c.operation = .query → c.HasField "field" f → HasContent c name (.query name f)
  | scalar {op v x} : c.operation = .scalar op → c.Refers "time_series" v →
      c.HasNumber "scalar" x → HasContent c name (.scalar name c.operation (some (.text v)) x)
  | series {op v w} : c.operation = .series op → c.Refers "left" v → c.Refers "right" w →
      HasContent c name (.series name c.operation (some (.text v)) (some (.text w)))
  | sma {v n} : c.operation = .sma → c.Refers "time_series" v → c.HasWindow "window_size" n →
      HasContent c name (.sma name (some (.text v)) n)

section Unique

variable {c : Calculation} {role : String}

theorem Refers.unique {v w : String} (hv : c.Refers role v) (hw : c.Refers role w) : v = w := by
  obtain ⟨o, ho, -, hv⟩ := hv
  obtain ⟨o', ho', -, hw⟩ := hw
  obtain rfl := Option.some.inj (ho.symm.trans ho')
  exact Option.some.inj (hv.symm.trans hw)

/-- A calculation has one content under its name. -/
theorem HasContent.unique {name : Scalar} {x y : Content} (hx : c.HasContent name x)
    (hy : c.HasContent name y) : x = y := by
  cases hx with
  | query hop hf =>
    cases hy with
    | query _ hf' =>
      obtain rfl := Except.ok.inj ((field_eq_ok.mpr hf).symm.trans (field_eq_ok.mpr hf'))
      rfl
    | scalar hop' | series hop' | sma hop' => cases hop.symm.trans hop'
  | scalar hop hv hn =>
    cases hy with
    | scalar _ hv' hn' =>
      obtain rfl := hv.unique hv'
      obtain rfl := Except.ok.inj ((number_eq_ok.mpr hn).symm.trans (number_eq_ok.mpr hn'))
      rfl
    | query hop' | series hop' | sma hop' => cases hop.symm.trans hop'
  | series hop hv hw =>
    cases hy with
    | series _ hv' hw' =>
      obtain rfl := hv.unique hv'
      obtain rfl := hw.unique hw'
      rfl
    | query hop' | scalar hop' | sma hop' => cases hop.symm.trans hop'
  | sma hop hv hn =>
    cases hy with
    | sma _ hv' hn' =>
      obtain rfl := hv.unique hv'
      obtain rfl := Except.ok.inj ((window_eq_ok.mpr hn).symm.trans (window_eq_ok.mpr hn'))
      rfl
    | query hop' | scalar hop' | series hop' => cases hop.symm.trans hop'

end Unique

end Calculation

/-! ## What the nodes of a built graph hold -/

namespace Strategy

/-- What the node of a name holds, read from the strategy alone. -/
def NameContent (s : Strategy) (n : Scalar) (x : Content) : Prop :=
  ∃ c ∈ s.calculations, c.name = .scalar n ∧ c.HasContent n x

variable {s : Strategy} {strict : Bool} {p : Plan} {g : Graph}

/-- In a planned strategy a name has one content, since it names one calculation. -/
theorem NameContent.unique (hp : s.Planned strict p) {n : Scalar} {x y : Content}
    (hx : s.NameContent n x) (hy : s.NameContent n y) : x = y := by
  obtain ⟨c, hc, hn, hx⟩ := hx
  obtain ⟨c', hc', hn', hy⟩ := hy
  obtain rfl := hp.calculation_unique hc hc' hn hn'
  exact hx.unique hy

namespace BuiltFrom

/-- The position of a name is read back as the name. -/
theorem nameAt?_idxOf (h : s.BuiltFrom strict p g) {n : Scalar} (hn : n ∈ p.order) :
    g.nameAt? (p.order.idxOf n) = some n := by
  have hlt : p.order.idxOf n < g.length := by
    rw [Graph.length, h.length_nodes]
    exact List.idxOf_lt_length_of_mem hn
  rw [Graph.nameAt?, position?, if_pos ⟨Int.natCast_nonneg _, Int.ofNat_lt.mpr hlt⟩,
    Int.toNat_natCast, Option.bind_some, h.name_at, List.getElem?_idxOf hn]

/-- The node compiled of a calculation holds the content of that calculation. -/
theorem hasContent (h : s.BuiltFrom strict p g) {c : Calculation} {n : Scalar} {node : Node}
    (hnode : c.CompilesTo p.order n node) : c.HasContent n (g.content node) := by
  cases hnode with
  | query hop hf => exact .query hop hf
  | scalar hop hv hmem hx =>
    rw [Graph.content, h.nameAt?_idxOf hmem]
    exact .scalar hop hv hx
  | series hop hv hvmem hw hwmem =>
    rw [Graph.content, h.nameAt?_idxOf hvmem, h.nameAt?_idxOf hwmem]
    exact .series hop hv hw
  | sma hop hv hmem hn =>
    rw [Graph.content, h.nameAt?_idxOf hmem]
    exact .sma hop hv hn

/-- The contents of the nodes are the contents of the names, in the order of execution. -/
theorem forall₂_contents (h : s.BuiltFrom strict p g) :
    List.Forall₂ s.NameContent p.order g.contents := by
  rw [Graph.contents, List.forall₂_map_right_iff]
  refine h.nodes.imp ?_
  rintro n node ⟨c, hc, hn, hnode⟩
  exact ⟨c, hc, hn, h.hasContent hnode⟩

end BuiltFrom

end Strategy

end ScorePortfolio

import ScorePortfolio.Proofs.Entries
import ScorePortfolio.Proofs.Graph.Built
import ScorePortfolio.Proofs.Strategy.Renaming

/-!
# Graphs under other names

Compiling turns the name in a reference into a position, and the position of a name is that of its
replacement among the replacements.  So a strategy under other names is refused together with the
strategy, by an error of the same kind, or has the same graph up to the names.
-/

namespace ScorePortfolio

variable {f : String → String}

/-- The node with its name replaced. -/
def Node.rename (f : String → String) : Node → Node
  | query name field => query (name.rename f) field
  | scalar name operation source number => scalar (name.rename f) operation source number
  | series name operation left right => series (name.rename f) operation left right
  | sma name source window => sma (name.rename f) source window
  | foreign => foreign

/-- The graph with the names of its nodes replaced. -/
def Graph.rename (f : String → String) (g : Graph) : Graph :=
  { g with nodes := g.nodes.map (Node.rename f), edges := g.edges.map (renameEdge f) }

/-! ## Operands -/

/-- Names have the positions of their replacements. -/
theorem idxOf?_rename (hf : Function.Injective f) (order : List Scalar) (n : Scalar) :
    (order.map (Scalar.rename f)).idxOf? (n.rename f) = order.idxOf? n := by
  rw [List.idxOf?, List.findIdx?_map, List.idxOf?]
  congr 1
  funext m
  simp [(Scalar.rename_injective hf).eq_iff]

namespace Calculation

variable {c : Calculation} {role : String}

theorem operand?_rename (role : Doc) :
    (c.rename f).operand? role = (c.operand? role).map (Operand.rename f) :=
  List.find?_map

theorem required_rename :
    AgreeVia (Operand.rename f) (c.required role) ((c.rename f).required role) := by
  rw [required, required, operand?_rename]
  cases c.operand? (.text role) with
  | none => exact .error rfl
  | some o => exact .ok rfl

theorem requiredOf_rename (kinds : List OperandKind) :
    AgreeVia (Operand.rename f) (c.requiredOf role kinds) ((c.rename f).requiredOf role kinds) := by
  refine required_rename.bind ?_
  rintro o _ - rfl
  rw [Operand.rename_kind]
  split
  · exact .ok rfl
  · exact .error rfl

/-- A literal is no name. -/
theorem requiredOf_rename_literal {kinds : List OperandKind} (h : .reference ∉ kinds) :
    AgreeVia id (c.requiredOf role kinds) ((c.rename f).requiredOf role kinds) := by
  refine (requiredOf_rename kinds).imp ?_
  rintro o _ ho rfl
  exact Operand.rename_eq_self fun hkind ↦ h (hkind ▸ (requiredOf_eq_ok.mp ho).2)

theorem field_rename (h : ∀ o ∈ c.operands, o.kind ≠ .reference) :
    AgreeVia id c.field (c.rename f).field := by
  rw [field, field, operand?_rename]
  cases ho : c.operand? (.text "field") with
  | none => exact .ok rfl
  | some o =>
    rw [Option.map_some, Operand.rename_eq_self (h o (List.mem_of_find?_eq_some ho))]
    dsimp only
    split
    · exact .ok rfl
    · exact .error rfl

/-- A source is found at the same position in the renamed order. -/
theorem source_rename (hf : Function.Injective f) (strategy : Doc) (order : List Scalar) :
    AgreeVia id (c.source strategy order role)
      ((c.rename f).source strategy (order.map (Scalar.rename f)) role) := by
  refine (requiredOf_rename _).bind ?_
  rintro o _ ho rfl
  have hkind : o.kind = .reference := List.mem_singleton.mp (requiredOf_eq_ok.mp ho).2
  have hposition :
      ((o.rename f).value.bind fun v ↦ (order.map (Scalar.rename f)).idxOf? (.text v)) =
        o.value.bind fun v ↦ order.idxOf? (.text v) := by
    rw [Operand.rename_value hkind, Option.bind_map]
    congr 1
    funext v
    exact idxOf?_rename hf order (.text v)
  rw [hposition]
  cases o.value.bind fun v ↦ order.idxOf? (.text v) with
  | none => exact .error rfl
  | some i => exact .ok rfl

theorem number_rename : AgreeVia id (c.number role) ((c.rename f).number role) := by
  refine (requiredOf_rename_literal (by simp)).bind ?_
  rintro _ o - rfl
  cases o.value with
  | none => exact .error rfl
  | some text =>
    dsimp only
    cases Decimal.double? text with
    | none => exact .error rfl
    | some x =>
      dsimp only
      split
      · exact .ok rfl
      · exact .error rfl

theorem window_rename : AgreeVia id (c.window role) ((c.rename f).window role) := by
  refine (requiredOf_rename_literal (by simp)).bind ?_
  rintro _ o - rfl
  cases o.value.bind Decimal.integer? with
  | none => exact .error rfl
  | some n =>
    dsimp only
    split
    · exact .error rfl
    · exact .ok rfl

/-- A calculation compiles to the renamed node, or fails with the same class of error.  A QUERY must
not take its field by Reference: references are renamed, and it would ask for another field. -/
theorem compile_rename (hf : Function.Injective f) (strategy : Doc) (order : List Scalar)
    (name : Scalar) (hquery : c.operation = .query → ∀ o ∈ c.operands, o.kind ≠ .reference) :
    AgreeVia (Node.rename f) (c.compile strategy order name)
      ((c.rename f).compile strategy (order.map (Scalar.rename f)) (name.rename f)) := by
  rw [compile, compile, rename_operation]
  cases hop : c.operation with
  | query =>
    refine (field_rename (hquery hop)).bind ?_
    rintro field _ - rfl
    exact .ok rfl
  | scalar op =>
    refine (source_rename hf strategy order).bind ?_
    rintro source _ - rfl
    refine number_rename.bind ?_
    rintro number _ - rfl
    exact .ok rfl
  | series op =>
    refine (source_rename hf strategy order).bind ?_
    rintro left _ - rfl
    refine (source_rename hf strategy order).bind ?_
    rintro right _ - rfl
    exact .ok rfl
  | sma =>
    refine (source_rename hf strategy order).bind ?_
    rintro source _ - rfl
    refine window_rename.bind ?_
    rintro window _ - rfl
    exact .ok rfl

end Calculation

/-! ## Graphs -/

namespace Plan

variable {p p' : Plan}

/-- The node planned for a name is renamed with it. -/
theorem node_rename (hf : Function.Injective f) (h : p.Renames f p') (strategy : Doc)
    (hquery : ∀ n c, p.named.lookup n = some c → c.operation = .query →
      ∀ o ∈ c.operands, o.kind ≠ .reference) (name : Scalar) :
    AgreeVia (Node.rename f) (p.node strategy name) (p'.node strategy (name.rename f)) := by
  have hkey (a b : Scalar) : (a.rename f == b.rename f) = (a == b) := by
    rw [Bool.eq_iff_iff, beq_iff_eq, beq_iff_eq, (Scalar.rename_injective hf).eq_iff]
  rw [node, node, h.named, h.order, renameNamed, Entries.lookup_map_keys hkey]
  cases hc : p.named.lookup name with
  | none => exact .error rfl
  | some c => exact Calculation.compile_rename hf strategy p.order name (hquery name c hc)

/-- A plan whose queries take no field by Reference compiles to the renamed graph, or to an error of
the same class. -/
theorem compile_rename (hf : Function.Injective f) (h : p.Renames f p') (strategy : Doc)
    (hquery : ∀ n c, p.named.lookup n = some c → c.operation = .query →
      ∀ o ∈ c.operands, o.kind ≠ .reference) :
    AgreeVia (Graph.rename f) (p.compile strategy) (p'.compile strategy) := by
  rw [compile, compile, h.order, h.score, h.edges]
  refine (Agree.mapM fun name _ ↦ node_rename hf h strategy hquery name).bind ?_
  rintro nodes _ - rfl
  refine .ok ?_
  rw [List.idxOf_eq_getD_idxOf?, idxOf?_rename hf, List.length_map,
    ← List.idxOf_eq_getD_idxOf?]
  rfl

end Plan

/-- A strategy under other names is accepted or refused as the strategy is. -/
theorem Strategy.build_agreeVia (hf : Function.Injective f) {s : Strategy}
    (hs : s.NoQueryReferences) (strict : Bool) :
    AgreeVia (Graph.rename f) (s.build strict) ((s.rename f).build strict) := by
  refine (s.plan_rename hf strict).bind fun p p' hp h ↦ ?_
  refine Plan.compile_rename hf h s.name fun n c hc ↦ ?_
  exact hs c ((planned_of_plan hp).mem_named hc).1

/-! ## What a graph tells of its names -/

theorem Node.name?_rename (node : Node) :
    (node.rename f).name? = node.name?.map (Scalar.rename f) := by
  cases node <;> rfl

namespace Graph

theorem executionOrder_rename (g : Graph) :
    (g.rename f).executionOrder = g.executionOrder.map (Scalar.rename f) := by
  rw [executionOrder, rename, List.filterMap_map, executionOrder, List.map_filterMap]
  congr 1
  funext node
  exact node.name?_rename

/-- Names keep their positions. -/
theorem positions_rename (g : Graph) :
    (g.rename f).positions = g.positions.map (Prod.map (Scalar.rename f) id) := by
  rw [positions, executionOrder_rename, List.zipIdx_map, positions]

end Graph

end ScorePortfolio

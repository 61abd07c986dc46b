import ScorePortfolio.Proofs.Digraph.Renaming
import ScorePortfolio.Proofs.Strategy.Operands
import ScorePortfolio.Proofs.Strategy.Plan

/-!
# Strategies under other names

A renaming replaces the texts that calculations have for names, wherever a strategy uses one: as the
name of a calculation, as the score and as the value of a reference.  Roles, literals and fields are
texts too, but no names, and stay.  As long as different texts stay different, every stage of the
plan does the same under the new names, or fails in the same way.
-/

namespace ScorePortfolio

variable {f : String → String}

/-! ## Renaming -/

/-- The name with its text replaced; what is no text stays. -/
def Scalar.rename (f : String → String) : Scalar → Scalar
  | text t => text (f t)
  | a => a

/-- The document with its text replaced, if it is one. -/
def Doc.rename (f : String → String) : Doc → Doc
  | scalar a => scalar (a.rename f)
  | doc => doc

/-- The operand with the name that it refers to replaced. -/
def Operand.rename (f : String → String) (o : Operand) : Operand :=
  { o with value := if o.kind = .reference then o.value.map f else o.value }

/-- The calculation with its name and those that it refers to replaced. -/
def Calculation.rename (f : String → String) (c : Calculation) : Calculation :=
  { c with name := c.name.rename f, operands := c.operands.map (Operand.rename f) }

/-- The strategy with the names of its calculations replaced. -/
def Strategy.rename (f : String → String) (s : Strategy) : Strategy :=
  { s with score := s.score.rename f, calculations := s.calculations.map (Calculation.rename f) }

@[simp] theorem Operand.rename_kind (o : Operand) : (o.rename f).kind = o.kind := rfl

@[simp] theorem Operand.rename_role (o : Operand) : (o.rename f).role = o.role := rfl

theorem Operand.rename_value {o : Operand} (h : o.kind = .reference) :
    (o.rename f).value = o.value.map f :=
  if_pos h

theorem Operand.rename_eq_self {o : Operand} (h : o.kind ≠ .reference) : o.rename f = o := by
  rw [rename, if_neg h]

@[simp] theorem Calculation.rename_name (c : Calculation) :
    (c.rename f).name = c.name.rename f := rfl

@[simp] theorem Calculation.rename_operation (c : Calculation) :
    (c.rename f).operation = c.operation := rfl

/-- No query has a reference.  The value of a reference is a name, but a query reads that of its
field as the name of a field. -/
def Strategy.NoQueryReferences (s : Strategy) : Prop :=
  ∀ c ∈ s.calculations, c.operation = .query → ∀ o ∈ c.operands, o.kind ≠ .reference

namespace Scalar

@[simp] theorem rename_text (t : String) : (text t).rename f = text (f t) := rfl

theorem rename_injective (hf : Function.Injective f) : Function.Injective (rename f) := by
  intro a b h
  cases a <;> cases b <;> simp_all [rename, hf.eq_iff]

theorem key_rename (a : Scalar) : (a.rename f).key = a.key.rename f := by
  cases a with
  | float x =>
    simp only [rename, key]
    split <;> rfl
  | null | bool _ | int _ | text _ => rfl

/-- Names told apart stay so. -/
theorem same_rename (hf : Function.Injective f) (a b : Scalar) :
    (a.rename f).same (b.rename f) = a.same b := by
  rw [Bool.eq_iff_iff, same_iff, same_iff, key_rename, key_rename, (rename_injective hf).eq_iff]

@[simp] theorem text?_rename (a : Scalar) : (a.rename f).text? = a.text?.map f := by
  cases a <;> rfl

@[simp] theorem units?_rename (a : Scalar) : (a.rename f).units? = a.units? := by
  cases a <;> rfl

end Scalar

/-- An injective renaming neither separates names that are the same nor joins names that are not. -/
theorem Doc.same_rename (hf : Function.Injective f) (a : Scalar) (doc : Doc) :
    (Doc.scalar (a.rename f)).same (doc.rename f) = (Doc.scalar a).same doc := by
  cases doc with
  | scalar b => exact Scalar.same_rename hf a b
  | list | map => rfl

/-- Both computations succeed, the second one with the image of what comes out of the first, or
both fail with errors of one kind. -/
abbrev AgreeVia {α β : Type} (h : α → β) :
    Except StrategyError α → Except StrategyError β → Prop :=
  Agree (fun e e' ↦ e.kind = e'.kind) fun a b ↦ b = h a

/-! ## Names -/

/-- A calculation and its name under other names. -/
def renameNamed (f : String → String) : Scalar × Calculation → Scalar × Calculation :=
  Prod.map (Scalar.rename f) (Calculation.rename f)

theorem map_fst_renameNamed (named : List (Scalar × Calculation)) :
    (named.map (renameNamed f)).map (·.1) = (named.map (·.1)).map (Scalar.rename f) := by
  rw [List.map_map, List.map_map]
  rfl

/-- Whether names have an order does not depend on their texts, though the order itself does. -/
theorem sortNames_rename (names : List Scalar) :
    Agree (fun e e' ↦ e.kind = e'.kind) (fun l l' ↦ l.length = l'.length) (sortNames names)
      (sortNames (names.map (Scalar.rename f))) := by
  refine agree_of_exists ?_ (fun l l' h h' ↦ ?_) (fun e e' h h' ↦ ?_)
  · rw [exists_sortNames, exists_sortNames, List.length_map, List.all_map, List.all_map]
    simp [Function.comp_def]
  · rw [sortNames_length h, sortNames_length h', List.length_map]
  · rw [sortNames_eq_error h, sortNames_eq_error h']

/-- The names reported as repeated are renamed with the strategy. -/
theorem repeatedNames_rename (hf : Function.Injective f) (names : List Scalar) :
    repeatedNames (names.map (Scalar.rename f)) = (repeatedNames names).map (Scalar.rename f) := by
  have hcount (n : Scalar) :
      (names.map (Scalar.rename f)).countP (n.rename f).same = names.countP n.same := by
    rw [List.countP_map]
    exact congrArg (names.countP ·) (funext fun m ↦ Scalar.same_rename hf n m)
  rw [repeatedNames, Digraph.filter_map_of_comp fun n ↦ by rw [hcount n],
    Digraph.eraseDupsBy_map (Scalar.same_rename hf), repeatedNames]

namespace Strategy

/-- The list by name is renamed with the strategy. -/
theorem named_rename (s : Strategy) :
    AgreeVia (List.map (renameNamed f)) s.named (s.rename f).named := by
  refine Agree.mapM fun c _ ↦ ?_
  rw [Calculation.rename_name]
  cases c.name with
  | scalar n => exact .ok rfl
  | list | map => exact .error rfl

/-- Names are found distinct before the renaming exactly if they are after it. -/
theorem distinctlyNamed_rename (hf : Function.Injective f) (s : Strategy) :
    AgreeVia (List.map (renameNamed f)) s.distinctlyNamed (s.rename f).distinctlyNamed := by
  have hempty : (s.rename f).calculations.isEmpty = s.calculations.isEmpty := List.isEmpty_map
  rw [distinctlyNamed, distinctlyNamed, hempty]
  split
  · exact .error rfl
  · refine (named_rename s).bind ?_
    rintro named _ - rfl
    rw [map_fst_renameNamed, repeatedNames_rename hf]
    refine (sortNames_rename _).bind ?_
    intro found found' _ hlen
    cases found with
    | nil =>
      obtain rfl : found' = [] := List.length_eq_zero_iff.mp hlen.symm
      exact .ok rfl
    | cons =>
      cases found' with
      | nil => cases hlen
      | cons => exact .error rfl

/-- The score is the same calculation. -/
theorem scoreIn?_rename (hf : Function.Injective f) (s : Strategy)
    (named : List (Scalar × Calculation)) :
    (s.rename f).scoreIn? (named.map (renameNamed f)) =
      (s.scoreIn? named).map (Scalar.rename f) := by
  rw [scoreIn?, map_fst_renameNamed, List.find?_map, scoreIn?]
  congr 2
  funext n
  exact Doc.same_rename hf n s.score

end Strategy

/-! ## Dependencies -/

/-- A dependency under other names. -/
def renameEdge (f : String → String) : Scalar × Scalar → Scalar × Scalar :=
  Prod.map (Scalar.rename f) (Scalar.rename f)

/-- An operand gives the renamed edge, or is refused before the renaming and after it. -/
theorem Operand.edge?_rename (hf : Function.Injective f) (strategy : Doc) (names : List Scalar)
    (name : Scalar) (c : Calculation) (o : Operand) :
    AgreeVia (Option.map (renameEdge f)) (o.edge? strategy names name c)
      ((o.rename f).edge? strategy (names.map (Scalar.rename f)) (name.rename f) (c.rename f)) := by
  unfold edge? isReference
  by_cases hkind : o.kind = .reference
  · simp only [rename_kind, hkind, rename_value hkind, Calculation.rename_operation,
      decide_true, Bool.not_true, Bool.false_eq_true, if_false]
    cases o.value with
    | none =>
      by_cases hop : c.operation = .query
      · simp only [hop, if_true, Option.map_none]
        exact .ok rfl
      · simp only [hop, if_false, Option.map_none]
        exact .error rfl
    | some v =>
      have hmem : .text (f v) ∈ names.map (Scalar.rename f) ↔ .text v ∈ names :=
        List.mem_map_of_injective (Scalar.rename_injective hf) (a := .text v)
      simp only [Option.map_some, hmem]
      by_cases hv : .text v ∈ names
      · simp only [hv, if_true]
        exact .ok rfl
      · by_cases hop : c.operation = .query
        · simp only [hv, hop, if_true, if_false]
          exact .ok rfl
        · simp only [hv, hop, if_false]
          exact .error rfl
  · simp only [rename_kind, hkind, decide_false, Bool.not_false, if_true]
    exact .ok rfl

/-- The edges are renamed with the strategy, or refused before the renaming and after it. -/
theorem collectEdges_rename (hf : Function.Injective f) (strategy : Doc)
    (named : List (Scalar × Calculation)) :
    AgreeVia (List.map (renameEdge f)) (collectEdges strategy named)
      (collectEdges strategy (named.map (renameNamed f))) := by
  have hinj : Function.Injective (renameEdge f) :=
    (Scalar.rename_injective hf).prodMap (Scalar.rename_injective hf)
  rw [collectEdges, collectEdges, map_fst_renameNamed]
  refine Agree.bind (Agree.mapM (h := List.map (Option.map (renameEdge f))) ?_) ?_
  · rintro ⟨name, c⟩ -
    exact Agree.mapM fun o _ ↦ o.edge?_rename hf strategy _ name c
  · rintro found _ - rfl
    have hflat : (found.map (List.map (Option.map (renameEdge f)))).flatten.filterMap id =
        (found.flatten.filterMap id).map (renameEdge f) := by
      rw [← List.map_flatten, List.filterMap_map, List.map_filterMap]
      rfl
    refine .ok ?_
    rw [hflat]
    exact Digraph.eraseDupsBy_map (fun a b ↦ by simp [hinj.eq_iff]) _

/-! ## Plan -/

/-- Loose parts are found before the renaming exactly if they are found after it. -/
theorem looseness?_rename (hf : Function.Injective f) (g : Digraph Scalar) (score : Scalar) :
    Agree (fun e e' ↦ e.kind = e'.kind) (fun l l' ↦ l.isSome = l'.isSome) (looseness? g score)
      (looseness? (g.map (Scalar.rename f)) (score.rename f)) := by
  have hinj := Scalar.rename_injective hf
  rw [looseness?, looseness?, Digraph.components_map hinj, List.length_map]
  split
  · exact .ok rfl
  · -- which calculations are apart is the same, in which order they are listed is not
    have horphans : (g.map (Scalar.rename f)).vertices.filter
        (· ∉ (g.map (Scalar.rename f)).component (score.rename f)) =
          (g.vertices.filter (· ∉ g.component score)).map (Scalar.rename f) :=
      Digraph.filter_map_of_comp (fun n ↦ by
        simp only [Digraph.component_map hinj, List.mem_map_of_injective hinj]) g.vertices
    dsimp only
    rw [horphans]
    exact (sortNames_rename _).bind fun _ _ _ _ ↦ .ok rfl

/-- The second plan is the first one under other names, up to the order in which it lists the
calculations out of reach of the score. -/
structure Plan.Renames (f : String → String) (p p' : Plan) : Prop where
  named : p'.named = p.named.map (renameNamed f)
  score : p'.score = p.score.rename f
  edges : p'.edges = p.edges.map (renameEdge f)
  order : p'.order = p.order.map (Scalar.rename f)

/-- The plan of a renamed strategy is the renamed plan, or both fail with the same class of
error. -/
theorem Strategy.plan_rename (hf : Function.Injective f) (s : Strategy) (strict : Bool) :
    Agree (fun e e' ↦ e.kind = e'.kind) (Plan.Renames f) (s.plan strict)
      ((s.rename f).plan strict) := by
  have hinj := Scalar.rename_injective hf
  rw [plan, plan]
  refine (s.distinctlyNamed_rename hf).bind ?_
  rintro named _ - rfl
  have hscore := s.scoreIn?_rename hf named
  rw [scoreIn?, scoreIn?] at hscore
  dsimp only
  rw [hscore]
  cases (named.map (·.1)).find? fun n ↦ (Doc.scalar n).same s.score with
  | none => exact .error rfl
  | some score =>
    refine (collectEdges_rename hf s.name named).bind ?_
    rintro edges _ - rfl
    have hgraph : (⟨(named.map (renameNamed f)).map (·.1), edges.map (renameEdge f)⟩ :
        Digraph Scalar) = Digraph.map (Scalar.rename f) ⟨named.map (·.1), edges⟩ := by
      rw [map_fst_renameNamed]
      rfl
    rw [hgraph, Digraph.stuck_map hinj, List.isEmpty_map]
    split
    · exact .error rfl
    · refine (looseness?_rename hf _ score).bind ?_
      intro loose loose' _ hloose
      have hplan : Plan.Renames f
          ⟨named, score, edges, Digraph.order ⟨named.map (·.1), edges⟩, loose⟩
          ⟨named.map (renameNamed f), score.rename f, edges.map (renameEdge f),
            (Digraph.map (Scalar.rename f) ⟨named.map (·.1), edges⟩).order, loose'⟩ :=
        ⟨rfl, rfl, rfl, Digraph.order_map hinj _⟩
      cases strict with
      | false => exact .ok hplan
      | true =>
        cases loose with
        | none =>
          cases loose' with
          | none => exact .ok hplan
          | some => cases hloose
        | some =>
          cases loose' with
          | none => cases hloose
          | some => exact .error rfl

end ScorePortfolio

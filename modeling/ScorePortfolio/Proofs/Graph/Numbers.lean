import ScorePortfolio.Proofs.Graph.Validity
import ScorePortfolio.Proofs.Number.Spellings
import ScorePortfolio.Proofs.Strategy.Reading
import ScorePortfolio.Proofs.Strategy.Reordering

/-!
# Numbers from the document to the graph

A number of a document becomes the text of an operand, and the text becomes a number of a node.
Both steps are faithful: an integer is spelled by its digits, of which there are not too many, and a
finite double by a text that is read back as it is.  So nothing but the reference of the calculation
can be wrong with its node, and the node holds the number of the document.
-/

namespace ScorePortfolio

/-! ## From the document to the operand -/

/-- The first operand of a role in the document of a calculation has the type and the value. -/
def Doc.GivesOperand (doc : Doc) (role : String) (kind : OperandKind) (value : Doc) : Prop :=
  ∃ before operand after, doc.valueOf "operands" = .list (before ++ operand :: after) ∧
    (∀ o ∈ before, o.valueOf "name" ≠ .text role) ∧ operand.valueOf "name" = .text role ∧
    operand.valueOf "type" = .text kind.word ∧ operand.valueOf "value" = value

theorem OperandKind.word_injective : Function.Injective word := fun kind kind' h ↦
  Option.some.inj ((ofWord?_word kind).symm.trans (h ▸ ofWord?_word kind'))

namespace Calculation

section Described

variable {c : Calculation} {doc value : Doc} {role : String} {kind : OperandKind}

/-- The first operand of a role is described by the first item of the role. -/
theorem find?_role_of_forall₂ {before after : List Doc} {operand : Doc} {operands : List Operand}
    (h : List.Forall₂ (fun item o ↦ o.DescribedBy item) (before ++ operand :: after) operands)
    (hbefore : ∀ o ∈ before, o.valueOf "name" ≠ .text role)
    (hrole : operand.valueOf "name" = .text role) :
    ∃ o, operands.find? (·.role.same (.text role)) = some o ∧ o.DescribedBy operand := by
  induction before generalizing operands with
  | nil =>
    cases h with
    | cons ho _ => exact ⟨_, List.find?_cons_of_pos (role_same_text.mpr (ho.role ▸ hrole)), ho⟩
  | cons item before ih =>
    rw [List.forall_mem_cons] at hbefore
    cases h with
    | cons ho hrest =>
      obtain ⟨o, hfind, hdescribed⟩ := ih hrest hbefore.2
      refine ⟨o, ?_, hdescribed⟩
      rw [List.find?_cons_of_neg, hfind]
      exact fun hsame ↦ hbefore.1 (ho.role.trans (role_same_text.mp hsame))

/-- An operand is read with its type and the text of its value. -/
theorem DescribedBy.operand?_eq (h : c.DescribedBy doc)
    (hgives : doc.GivesOperand role kind value) :
    c.operand? (.text role) = some ⟨.text role, kind, value.literal?⟩ := by
  obtain ⟨before, operand, after, hitems, hbefore, hrole, hkind, rfl⟩ := hgives
  obtain ⟨items, hread, hoperands⟩ := h.operands
  rw [hitems] at hread
  obtain rfl := Except.ok.inj hread
  obtain ⟨o, hfind, ho⟩ := find?_role_of_forall₂ hoperands hbefore hrole
  have hword := Scalar.text.inj (Doc.scalar.inj (ho.kind.symm.trans hkind))
  rw [operand?, hfind, ho.value, ← hrole, ho.role, ← OperandKind.word_injective hword]

end Described

/-! ## From the operand to the node -/

/-- The calculation of a strategy becomes a node of its name that reads the position of its series,
and nothing else can be wrong with it than the reference to the series. -/
structure Becomes (s : Strategy) (c : Calculation) (node : Scalar → ℤ → Node) : Prop where
  compile : ∀ strategy order name,
    c.compile strategy order name = (c.source strategy order "time_series").map (node name)
  /-- There is a graph if there is a plan and the other calculations have their operands. -/
  build : ∀ strict p, s.plan strict = .ok p → c.HasReference "time_series" →
    (∀ c' ∈ s.calculations, c' ≠ c → c'.HasOperands) → ∃ g, s.build strict = .ok g
  /-- In a graph it is the one node of the name. -/
  nodes : ∀ strict g, s.build strict = .ok g → ∃ name source, c.name = .scalar name ∧
    c.source s.name g.executionOrder "time_series" = .ok source ∧
    ∀ n, n ∈ g.nodes ∧ n.name? = some name ↔ n = node name source

end Calculation

section Nodes

variable {s : Strategy} {strict : Bool} {p : Plan} {g : Graph} {c : Calculation} {name : Scalar}

/-- A calculation of a graph compiles. -/
theorem Strategy.BuiltFrom.exists_compile (h : s.BuiltFrom strict p g) (hc : c ∈ s.calculations)
    (hname : c.name = .scalar name) :
    ∃ node ∈ g.nodes, c.compile s.name p.order name = .ok node := by
  have hmem : name ∈ p.order := h.plan.hasName_iff.mp ⟨c, hc, hname⟩
  have hlt := List.idxOf_lt_length_of_mem hmem
  have hat := List.getElem?_eq_getElem (h.length_nodes ▸ hlt)
  obtain ⟨name', hname', c', hc', hc'name, hcompiles⟩ := h.node_at hat
  obtain rfl : name = name' := Option.some.inj ((List.getElem?_idxOf hmem).symm.trans hname')
  obtain rfl := h.plan.calculation_unique hc hc' hname hc'name
  exact ⟨_, List.mem_of_getElem? hat, Calculation.compile_eq_ok.mpr hcompiles⟩

/-- The node of a name is the one that the calculation of the name compiles to. -/
theorem Strategy.BuiltFrom.mem_nodes_iff (h : s.BuiltFrom strict p g) (hc : c ∈ s.calculations)
    (hname : c.name = .scalar name) {node : Node} :
    node ∈ g.nodes ∧ node.name? = some name ↔ c.compile s.name p.order name = .ok node := by
  constructor
  · rintro ⟨hnode, hnodeName⟩
    obtain ⟨i, hi⟩ := List.getElem?_of_mem hnode
    obtain ⟨name', -, c', hc', hc'name, hcompiles⟩ := h.node_at hi
    obtain rfl : name' = name := Option.some.inj (hcompiles.name?_eq.symm.trans hnodeName)
    obtain rfl := h.plan.calculation_unique hc hc' hname hc'name
    exact Calculation.compile_eq_ok.mpr hcompiles
  · intro hcompile
    obtain ⟨node', hnode', hcompile'⟩ := h.exists_compile hc hname
    obtain rfl := Except.ok.inj (hcompile'.symm.trans hcompile)
    exact ⟨hnode', (Calculation.compile_eq_ok.mp hcompile).name?_eq⟩

end Nodes

namespace Calculation

section Compiled

variable {s : Strategy} {c : Calculation}

/-- An operation that compiles by its source alone becomes the node of that source wherever it is
built. -/
theorem becomes_of_compile {node : Scalar → ℤ → Node} (hc : c ∈ s.calculations)
    (hcompile : ∀ strategy order name,
      c.compile strategy order name = (c.source strategy order "time_series").map (node name))
    (hoperands : c.HasReference "time_series" → c.HasOperands) : c.Becomes s node where
  compile := hcompile
  build strict p hp href hothers := by
    refine (Strategy.planned_of_plan hp).exists_graph fun c' hc' ↦ ?_
    by_cases heq : c' = c
    · exact heq ▸ hoperands href
    · exact hothers c' hc' heq
  nodes strict g hg := by
    obtain ⟨p, hp⟩ := Strategy.exists_plan hg
    obtain ⟨name, hnamed⟩ := Strategy.exists_mem_named hp.plan.named hc
    have hname := ((Strategy.mem_named hp.plan.named).mp hnamed).2
    obtain ⟨node', -, hnode'⟩ := hp.exists_compile hc hname
    rw [hcompile] at hnode'
    obtain ⟨source, hsource, -⟩ := map_eq_ok.mp hnode'
    refine ⟨name, source, hname, hp.executionOrder_eq ▸ hsource, fun n ↦ ?_⟩
    rw [hp.mem_nodes_iff hc hname, hcompile, hsource]
    exact ⟨fun h ↦ (Except.ok.inj h).symm, fun h ↦ congrArg Except.ok h.symm⟩

/-- An average becomes a node with the window that its operand spells. -/
theorem HasWindow.becomes {w : ℤ} (h : c.HasWindow "window_size" w) (hc : c ∈ s.calculations)
    (hop : c.operation = .sma) : c.Becomes s fun name source ↦ .sma name source w := by
  refine becomes_of_compile hc (fun strategy order name ↦ ?_) fun href ↦ ?_
  · rw [compile, hop]
    dsimp only
    rw [window_eq_ok.mpr h]
    cases c.source strategy order "time_series" <;> rfl
  · rw [HasOperands, hop]
    exact ⟨href, w, h⟩

/-- A combination with a number becomes a node with the double that its operand spells. -/
theorem HasNumber.becomes {x : Float} {op : Arithmetic} (h : c.HasNumber "scalar" x)
    (hc : c ∈ s.calculations) (hop : c.operation = .scalar op) :
    c.Becomes s fun name source ↦ .scalar name (.scalar op) source x := by
  refine becomes_of_compile hc (fun strategy order name ↦ ?_) fun href ↦ ?_
  · rw [compile, hop]
    dsimp only
    rw [number_eq_ok.mpr h]
    cases c.source strategy order "time_series" <;> rfl
  · rw [HasOperands, hop]
    exact ⟨href, x, h⟩

end Compiled

end Calculation

namespace Strategy

/-! ## From the document to the node -/

section Documents

variable {doc item : Doc} {s : Strategy} {c : Calculation} {items : List Doc} {i : ℕ}

/-- The calculations of a strategy are described by the items of the document, in order. -/
theorem describedBy_of_getElem? (h : ofDoc doc = .ok s)
    (hitems : doc.field? "calcs" = some (.list items)) (hitem : items[i]? = some item)
    (hc : s.calculations[i]? = some c) : c.DescribedBy item := by
  obtain ⟨items', hitems', hcalculations⟩ := (ofDoc_eq_ok.mp h).calculations
  obtain rfl := Doc.list.inj (Option.some.inj (hitems.symm.trans hitems'))
  obtain ⟨hlt, rfl⟩ := List.getElem?_eq_some_iff.mp hitem
  obtain ⟨hlt', rfl⟩ := List.getElem?_eq_some_iff.mp hc
  exact hcalculations.get hlt hlt'

/-- The numbers of a document are those of the nodes.  An integer may be given as a number or as its
digits; the text of a finite double is a shortest one, and is read back as the same bits. -/
theorem ofDoc_numbers (h : ofDoc doc = .ok s) (hitems : doc.field? "calcs" = some (.list items))
    (hitem : items[i]? = some item) (hc : s.calculations[i]? = some c) :
    (∀ w : ℤ, 1 ≤ w → w < 10 ^ 4300 → c.operation = .sma →
      ∀ value, value = .int w ∨ value = .text (toString w) →
      item.GivesOperand "window_size" .integer value →
      c.operand? (.text "window_size") =
          some ⟨.text "window_size", .integer, some (toString w)⟩ ∧
        Decimal.integer? (toString w) = some w ∧
        c.Becomes s fun name source ↦ .sma name source w) ∧
    ∀ x : Float, x.isFinite = true → ∀ op, c.operation = .scalar op →
      item.GivesOperand "scalar" .decimal (.scalar (.float x)) →
      c.operand? (.text "scalar") =
          some ⟨.text "scalar", .decimal, some (Decimal.shortestText x)⟩ ∧
        Decimal.Writes (Decimal.shortestText x) x ∧
        c.Becomes s fun name source ↦ .scalar name (.scalar op) source x := by
  have hdescribed := describedBy_of_getElem? h hitems hitem hc
  have hmem := List.mem_of_getElem? hc
  refine ⟨fun w hpos hlt hop value hvalue hgives ↦ ?_, fun x hfin op hop hgives ↦ ?_⟩
  · have hoperand := hdescribed.operand?_eq hgives
    have hliteral : value.literal? = some (toString w) := by
      rcases hvalue with rfl | rfl <;> rfl
    have hspelled := Decimal.integer?_toString_int (zero_le_one.trans hpos) hlt
    rw [hliteral] at hoperand
    exact ⟨hoperand, hspelled,
      Calculation.HasWindow.becomes ⟨_, _, hoperand, rfl, rfl, hspelled, hpos⟩ hmem hop⟩
  · have hoperand := hdescribed.operand?_eq hgives
    have hwrites := Decimal.writes_shortestText hfin
    exact ⟨hoperand, hwrites, Calculation.HasNumber.becomes
      ⟨_, _, hoperand, .inl rfl, rfl, hwrites.double?_eq, hfin⟩ hmem hop⟩

end Documents

/-! ## A multiple of a mean -/

/-- An operand of a document. -/
def operandDoc (role : String) (kind : OperandKind) (value : Doc) : Doc :=
  Doc.record [("name", .text role), ("type", .text kind.word), ("value", value)]

/-- A mean of prices in a document. -/
def meanDoc (window : Doc) : Doc := Doc.record [
  ("name", .text "mean"), ("operation", .text "SMA"), ("operands", .list [
    operandDoc "time_series" .reference (.text "price"),
    operandDoc "window_size" .integer window])]

/-- Its multiple in a document. -/
def multipleDoc (factor : Doc) : Doc := Doc.record [
  ("name", .text "multiple"), ("operation", .text "MUL"), ("operands", .list [
    operandDoc "time_series" .reference (.text "mean"),
    operandDoc "scalar" .decimal factor])]

/-- The document of a strategy that scores by the multiple. -/
def multiplesDoc (window factor : Doc) : Doc := Doc.record [
  ("name", .text "multiples"), ("score", Doc.record [("calc", .text "multiple")]),
  ("calcs", .list [Doc.record [("name", .text "price"), ("operation", .text "QUERY")],
    meanDoc window, multipleDoc factor])]

/-- The mean of prices. -/
def mean (window : Option String) : Calculation where
  name := .text "mean"
  operation := .sma
  operands := [⟨.text "time_series", .reference, some "price"⟩,
    ⟨.text "window_size", .integer, window⟩]

/-- Its multiple. -/
def multiple (factor : Option String) : Calculation where
  name := .text "multiple"
  operation := .scalar .mul
  operands := [⟨.text "time_series", .reference, some "mean"⟩,
    ⟨.text "scalar", .decimal, factor⟩]

/-- The strategy of the document. -/
def multiples (window factor : Option String) : Strategy where
  name := .text "multiples"
  score := .text "multiple"
  calculations := [⟨.text "price", .query, []⟩, mean window, multiple factor]

/-- The document of a window and a factor is read back as the strategy of the two, each by its
literal. -/
theorem multiplesDoc_ofDoc (window factor : Doc) :
    ofDoc (multiplesDoc window factor) = .ok (multiples window.literal? factor.literal?) := by
  refine ofDoc_eq_ok.mpr ⟨rfl, rfl, rfl, rfl, rfl, _, rfl, .cons ?_ (.cons ?_ (.cons ?_ .nil))⟩
  · exact ⟨rfl, rfl, rfl, rfl, [], rfl, .nil⟩
  · exact ⟨rfl, rfl, rfl, Operation.parse?_word .sma, _, rfl,
      .cons ⟨rfl, rfl, rfl, rfl, rfl⟩ (.cons ⟨rfl, rfl, rfl, rfl, rfl⟩ .nil)⟩
  · exact ⟨rfl, rfl, rfl, Operation.parse?_word (.scalar .mul), _, rfl,
      .cons ⟨rfl, rfl, rfl, rfl, rfl⟩ (.cons ⟨rfl, rfl, rfl, rfl, rfl⟩ .nil)⟩

theorem multiples_plan (window factor : Option String) : (multiples window factor).plan true =
    .ok ⟨[(.text "price", ⟨.text "price", .query, []⟩), (.text "mean", mean window),
        (.text "multiple", multiple factor)], .text "multiple",
      [(.text "price", .text "mean"), (.text "mean", .text "multiple")],
      [.text "price", .text "mean", .text "multiple"], none⟩ := by
  rfl

/-- A window of 250 and the negative double next to zero come through. -/
theorem multiples_numbers :
    ofDoc (multiplesDoc (.int 250) (.scalar (.float (Binary.ofBits true 1)))) =
      .ok (multiples (some "250") (some "-5e-324")) ∧
    ∃ g source source', (multiples (some "250") (some "-5e-324")).build true = .ok g ∧
      .sma (.text "mean") source 250 ∈ g.nodes ∧
      .scalar (.text "multiple") (.scalar .mul) source' (Binary.ofBits true 1) ∈ g.nodes := by
  have hfin : (Binary.ofBits true 1).isFinite = true := by decide
  have htext : Decimal.shortestText (Binary.ofBits true 1) = "-5e-324" := by decide +kernel
  have hdoc := multiplesDoc_ofDoc (.int 250) (.scalar (.float (Binary.ofBits true 1)))
  have hliteral : (Doc.scalar (.float (Binary.ofBits true 1))).literal? = some "-5e-324" :=
    congrArg some htext
  rw [hliteral] at hdoc
  have hlt : (250 : ℤ) < 10 ^ 4300 := by
    calc (250 : ℤ)
        _ < 10 ^ 3 := by decide
        _ ≤ 10 ^ 4300 := pow_le_pow_right₀ (by decide) (by decide)
  -- the operand of each literal comes after the reference
  have hfirst {role : String} (hrole : "time_series" ≠ role) (value : Doc) :
      ∀ o ∈ [operandDoc "time_series" .reference value], o.valueOf "name" ≠ .text role := by
    rintro o ho
    obtain rfl := List.mem_singleton.mp ho
    exact fun h ↦ hrole (Scalar.text.inj (Doc.scalar.inj h))
  obtain ⟨-, -, hmean⟩ := (ofDoc_numbers (i := 1) hdoc rfl rfl rfl).1 250 (by decide) hlt rfl _
    (.inl rfl) ⟨_, _, [], rfl, hfirst (by decide) _, rfl, rfl, rfl⟩
  obtain ⟨hoperand, hwrites, hmultiple⟩ := (ofDoc_numbers (i := 2) hdoc rfl rfl rfl).2
    (Binary.ofBits true 1) hfin .mul rfl ⟨_, _, [], rfl, hfirst (by decide) _, rfl, rfl, rfl⟩
  have hothers : ∀ c ∈ (multiples (some "250") (some "-5e-324")).calculations,
      c ≠ mean (some "250") → c.HasOperands := by
    intro c hc hne
    simp only [multiples, List.mem_cons, List.not_mem_nil, or_false] at hc
    rcases hc with rfl | rfl | rfl
    · exact ⟨none, .inl ⟨rfl, rfl⟩⟩
    · exact absurd rfl hne
    · exact ⟨⟨_, rfl, rfl⟩, _, _, _, hoperand, .inl rfl, rfl, hwrites.double?_eq, hfin⟩
  obtain ⟨g, hg⟩ := hmean.build true _ (multiples_plan _ _) ⟨_, rfl, rfl⟩ hothers
  obtain ⟨name, source, hname, -, hnode⟩ := hmean.nodes true g hg
  obtain ⟨name', source', hname', -, hnode'⟩ := hmultiple.nodes true g hg
  obtain rfl := Doc.scalar.inj hname
  obtain rfl := Doc.scalar.inj hname'
  exact ⟨hdoc, g, source, source', hg, ((hnode _).mpr rfl).1, ((hnode' _).mpr rfl).1⟩

end Strategy

end ScorePortfolio

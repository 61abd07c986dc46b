import ScorePortfolio.Proofs.Graph.Validity
import ScorePortfolio.Proofs.Number.Literals

/-!
# Literals of a graph

A node holds the number that its operand spells at the declared type, an average the integer and a
combination with a number the double, and text that spells no such number is refused at an operand.
There is one exception: a number declared an integer is read as a double, so a text that spells a
finite double and no integer passes, whatever its type says.
-/

namespace ScorePortfolio

namespace Operand

/-- The operand is declared an integer, and its text spells this one. -/
def SpellsInteger (o : Operand) (n : Int) : Prop :=
  o.kind = .integer ∧ ∃ t, o.value = some t ∧ Decimal.integer? t = some n

/-- The operand is declared a decimal, and its text spells this finite double. -/
def SpellsDecimal (o : Operand) (x : Float) : Prop :=
  o.kind = .decimal ∧ ∃ t, o.value = some t ∧ Decimal.double? t = some x ∧ x.isFinite = true

/-- The operand is declared an integer, and its text spells none but this finite double. -/
def SpellsFraction (o : Operand) (x : Float) : Prop :=
  o.kind = .integer ∧ ∃ t, o.value = some t ∧ Decimal.integer? t = none ∧
    Decimal.double? t = some x ∧ x.isFinite = true

end Operand

namespace Calculation

/-! ## Compiled literals -/

/-- The literal of the calculation's node is what its operand spells. -/
inductive HoldsLiteral (c : Calculation) : Node → Prop where
  | query {name f} : c.operation = .query → c.HasField "field" f → HoldsLiteral c (.query name f)
  | series {op name left right} : c.operation = .series op →
      HoldsLiteral c (.series name c.operation left right)
  | window {name source o n} : c.operation = .sma → c.operand? (.text "window_size") = some o →
      o.SpellsInteger n → 1 ≤ n → HoldsLiteral c (.sma name source n)
  | decimal {op name source o x} : c.operation = .scalar op →
      c.operand? (.text "scalar") = some o → o.SpellsDecimal x →
      HoldsLiteral c (.scalar name c.operation source x)
  | integer {op name source o n x} : c.operation = .scalar op →
      c.operand? (.text "scalar") = some o → o.SpellsInteger n → Binary.IsNearest n x →
      HoldsLiteral c (.scalar name c.operation source x)
  /-- The exception: the declared type is not looked at. -/
  | fraction {op name source o x} : c.operation = .scalar op →
      c.operand? (.text "scalar") = some o → o.SpellsFraction x →
      HoldsLiteral c (.scalar name c.operation source x)

/-- A compiled node holds the literal its calculation was written with. -/
theorem CompilesTo.holdsLiteral {c : Calculation} {order : List Scalar} {name : Scalar}
    {node : Node} (h : c.CompilesTo order name node) : c.HoldsLiteral node := by
  cases h with
  | query hop hf => exact .query hop hf
  | series hop => exact .series hop
  | sma hop _ _ hn =>
    obtain ⟨o, t, ho, hkind, hvalue, ht, hpos⟩ := hn
    exact .window hop ho ⟨hkind, t, hvalue, ht⟩ hpos
  | scalar hop _ _ hx =>
    obtain ⟨o, t, ho, hkind, hvalue, ht, hfin⟩ := hx
    rcases hkind with hkind | hkind
    · exact .decimal hop ho ⟨hkind, t, hvalue, ht, hfin⟩
    · cases hn : Decimal.integer? t with
      | none => exact .fraction hop ho ⟨hkind, t, hvalue, hn, ht, hfin⟩
      | some n =>
        exact .integer hop ho ⟨hkind, t, hvalue, hn⟩ (Decimal.isNearest_of_integer? hn ht hfin)

/-! ## Refused literals -/

/-- The text of a literal that the operation needs spells no number of the declared type.  A text
that spells a finite double and no integer is none of these, even where an integer is declared. -/
inductive HasMalformed (c : Calculation) : Prop where
  | window {o} : c.operation = .sma → c.operand? (.text "window_size") = some o →
      o.kind = .integer → (∀ n, ¬ o.SpellsInteger n) → HasMalformed c
  | decimal {op o} : c.operation = .scalar op → c.operand? (.text "scalar") = some o →
      o.kind = .decimal → (∀ x, ¬ o.SpellsDecimal x) → HasMalformed c
  | integer {op o} : c.operation = .scalar op → c.operand? (.text "scalar") = some o →
      o.kind = .integer → (∀ n, ¬ o.SpellsInteger n) → (∀ x, ¬ o.SpellsFraction x) →
      HasMalformed c

/-- A literal that does not parse leaves its calculation without the operand. -/
theorem HasMalformed.not_hasOperands {c : Calculation} (h : c.HasMalformed) : ¬ c.HasOperands := by
  rw [HasOperands]
  cases h with
  | window hop ho _ hno =>
    rw [hop]
    rintro ⟨-, n, o', t, ho', hkind, hvalue, ht, -⟩
    obtain rfl := Option.some.inj (ho.symm.trans ho')
    exact hno n ⟨hkind, t, hvalue, ht⟩
  | decimal hop ho hkind hno =>
    rw [hop]
    rintro ⟨-, x, o', t, ho', -, hvalue, ht, hfin⟩
    obtain rfl := Option.some.inj (ho.symm.trans ho')
    exact hno x ⟨hkind, t, hvalue, ht, hfin⟩
  | integer hop ho hkind hno hfraction =>
    rw [hop]
    rintro ⟨-, x, o', t, ho', -, hvalue, ht, hfin⟩
    obtain rfl := Option.some.inj (ho.symm.trans ho')
    cases hn : Decimal.integer? t with
    | none => exact hfraction x ⟨hkind, t, hvalue, hn, ht, hfin⟩
    | some n => exact hno n ⟨hkind, t, hvalue, hn⟩

end Calculation

namespace Strategy

/-- A graph holds the numbers that the operands of its calculations spell, at their declared types
but for the one exception.  A malformed literal is never accepted: what is planned is refused at an
operand. -/
theorem build_literals (s : Strategy) (strict : Bool) :
    (∀ g, s.build strict = .ok g → ∀ node ∈ g.nodes, ∃ c ∈ s.calculations,
      node.name?.map Doc.scalar = some c.name ∧ c.HoldsLiteral node) ∧
    ∀ c ∈ s.calculations, c.HasMalformed →
      (∀ g, s.build strict ≠ .ok g) ∧
      ∀ p, s.plan strict = .ok p → ∃ c' ∈ s.calculations, ∃ role d,
        c'.Lacks role ∧ s.build strict = .error (.operand c'.name (.text role) d) := by
  refine ⟨fun g hg node hnode ↦ ?_, fun c hc hmalformed ↦ ?_⟩
  · obtain ⟨p, hp⟩ := exists_plan hg
    obtain ⟨i, hi⟩ := List.getElem?_of_mem hnode
    obtain ⟨n, -, c, hc, hname, hcompiles⟩ := hp.node_at hi
    exact ⟨c, hc, by rw [hcompiles.name?_eq, hname, Option.map_some], hcompiles.holdsLiteral⟩
  · have hno : ∀ g, s.build strict ≠ .ok g := fun g hg ↦ by
      obtain ⟨p, hp⟩ := exists_plan hg
      exact hmalformed.not_hasOperands (hp.hasOperands hc)
    refine ⟨hno, fun p hp ↦ ?_⟩
    have hbuild : s.build strict = p.compile s.name := by rw [build, hp, ok_bind]
    cases hcompile : p.compile s.name with
    | ok g => exact absurd (hbuild.trans hcompile) (hno g)
    | error e =>
      obtain ⟨c', hc', role, d, hlacks, rfl⟩ := lacks_of_compile (planned_of_plan hp) hcompile
      exact ⟨c', hc', role, d, hlacks, hbuild.trans hcompile⟩

/-! ## A literal added to a price -/

/-- The sum of a price and a literal that is declared an integer. -/
def sumWith (value : String) : Calculation where
  name := .text "plus"
  operation := .scalar .add
  operands := [⟨.text "time_series", .reference, some "price"⟩,
    ⟨.text "scalar", .integer, some value⟩]

/-- The strategy that adds the literal to a price. -/
def addition (value : String) : Strategy where
  name := .text "addition"
  score := .text "plus"
  calculations := [⟨.text "price", .query, []⟩, sumWith value]

/-- Its graph, where the literal is read as a number. -/
def additionGraph (x : Float) : Graph where
  strategy := .text "addition"
  nodes := [.query (.text "price") none, .scalar (.text "plus") (.scalar .add) 0 x]
  scorePosition := 1
  edges := [(.text "price", .text "plus")]

section Addition

variable {value : String}

theorem addition_plan : (addition value).plan true =
    .ok ⟨[(.text "price", ⟨.text "price", .query, []⟩), (.text "plus", sumWith value)],
      .text "plus", [(.text "price", .text "plus")], [.text "price", .text "plus"], none⟩ := by
  rfl

/-- The addition of a literal is built with the double that the literal reads as. -/
theorem addition_build {x : Float} (hx : Decimal.double? value = some x)
    (hfin : x.isFinite = true) : (addition value).build true = .ok (additionGraph x) := by
  have hmem : Scalar.text "price" ∈ [Scalar.text "price", .text "plus"] := by simp
  have hsum : (sumWith value).compile (.text "addition") [.text "price", .text "plus"]
      (.text "plus") = .ok (.scalar (.text "plus") (.scalar .add) 0 x) :=
    Calculation.compile_eq_ok.mpr (.scalar rfl ⟨_, rfl, rfl, rfl⟩ hmem
      ⟨_, _, rfl, .inr rfl, rfl, hx, hfin⟩)
  rw [build, addition_plan, ok_bind]
  exact bind_eq_ok.mpr ⟨_, mapM_eq_ok.mpr (.cons rfl (.cons hsum .nil)), rfl⟩

end Addition

theorem addition_literals :
    (∃ c ∈ (addition " 1_0").calculations,
      c.HoldsLiteral (.scalar (.text "plus") (.scalar .add) 0 10)) ∧
    ∃ c ∈ (addition "ten").calculations, ∃ role d,
      (addition "ten").build true = .error (.operand c.name (.text role) d) := by
  have hten : Decimal.integer? "ten" = none := by decide
  have hten' : Decimal.double? "ten" = none := by decide
  have hmalformed : (sumWith "ten").HasMalformed := by
    refine .integer rfl rfl rfl ?_ ?_
    · rintro n ⟨-, t, ht, hn⟩
      obtain rfl := Option.some.inj ht
      cases hten.symm.trans hn
    · rintro x ⟨-, t, ht, -, hx, -⟩
      obtain rfl := Option.some.inj ht
      cases hten'.symm.trans hx
  constructor
  · have hbuild : (addition " 1_0").build true = .ok (additionGraph 10) :=
      addition_build (by decide +kernel) (by decide +kernel)
    obtain ⟨c, hc, -, hnode⟩ := (build_literals _ true).1 _ hbuild
      (.scalar (.text "plus") (.scalar .add) 0 10) (by simp [additionGraph])
    exact ⟨c, hc, hnode⟩
  · obtain ⟨-, herror⟩ := (build_literals (addition "ten") true).2 _
      (by simp [addition]) hmalformed
    obtain ⟨c, hc, role, d, -, hbuild⟩ := herror _ addition_plan
    exact ⟨c, hc, role, d, hbuild⟩

/-- A text that spells no integer is accepted where an integer is declared, so a literal of a graph
need not be one of its declared type. -/
theorem exists_literal_of_other_type :
    (addition "2.5").build true = .ok (additionGraph 2.5) ∧
    sumWith "2.5" ∈ (addition "2.5").calculations ∧
    (sumWith "2.5").operand? (.text "scalar") =
      some ⟨.text "scalar", .integer, some "2.5"⟩ ∧
    Decimal.integer? "2.5" = none ∧
    .scalar (.text "plus") (.scalar .add) 0 2.5 ∈ (additionGraph 2.5).nodes :=
  ⟨addition_build (by decide +kernel) (by decide +kernel), by simp [addition], rfl,
    by decide, by simp [additionGraph]⟩

end Strategy

end ScorePortfolio

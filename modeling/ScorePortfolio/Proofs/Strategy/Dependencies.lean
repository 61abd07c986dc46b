import ScorePortfolio.Proofs.Strategy.Names

/-!
# Dependencies of calculations

A calculation depends on those that its references name, whatever the roles of the references.  The
edges collected from a strategy are these dependencies, each once; collecting them fails only at a
reference of a calculation other than a query that names no calculation.
-/

namespace ScorePortfolio

/-- The operand is a reference to the text. -/
def Operand.RefersTo (o : Operand) (v : String) : Prop := o.kind = .reference ∧ o.value = some v

namespace Strategy

/-- The second calculation has a reference to the first. -/
def Depends (s : Strategy) (a b : Scalar) : Prop :=
  s.HasName a ∧ ∃ c ∈ s.calculations, c.name = .scalar b ∧
    ∃ o ∈ c.operands, ∃ v, o.RefersTo v ∧ a = .text v

/-- Every reference of a calculation other than a query names a calculation. -/
def KnownReferences (s : Strategy) : Prop :=
  ∀ c ∈ s.calculations, c.operation ≠ .query → ∀ o ∈ c.operands, o.kind = .reference →
    ∃ v, o.value = some v ∧ s.HasName (.text v)

/-- The names a strategy has are those its calculations are listed under. -/
theorem hasName_iff {s : Strategy} {named : List (Scalar × Calculation)}
    (hnamed : s.named = .ok named) {n : Scalar} : s.HasName n ↔ n ∈ named.map (·.1) := by
  obtain ⟨hcalcs, hnames⟩ := named_eq_ok.mp hnamed
  simp only [HasName, hcalcs, List.mem_map]
  constructor
  · rintro ⟨c, ⟨p, hp, rfl⟩, hn⟩
    exact ⟨p, hp, Doc.scalar.inj ((hnames p hp).symm.trans hn)⟩
  · rintro ⟨p, hp, rfl⟩
    exact ⟨p.2, ⟨p, hp, rfl⟩, hnames p hp⟩

/-- A calculation is listed under a name exactly if it is one of the strategy and bears that
name. -/
theorem mem_named {s : Strategy} {named : List (Scalar × Calculation)}
    (hnamed : s.named = .ok named) {n : Scalar} {c : Calculation} :
    (n, c) ∈ named ↔ c ∈ s.calculations ∧ c.name = .scalar n := by
  obtain ⟨hcalcs, hnames⟩ := named_eq_ok.mp hnamed
  rw [hcalcs, List.mem_map]
  constructor
  · exact fun h ↦ ⟨⟨(n, c), h, rfl⟩, hnames _ h⟩
  · rintro ⟨⟨p, hp, rfl⟩, hn⟩
    rwa [← Doc.scalar.inj ((hnames p hp).symm.trans hn)]

/-- Every calculation is listed, under whatever name it bears. -/
theorem exists_mem_named {s : Strategy} {named : List (Scalar × Calculation)}
    (hnamed : s.named = .ok named) {c : Calculation} (hc : c ∈ s.calculations) :
    ∃ n, (n, c) ∈ named := by
  obtain ⟨hcalcs, -⟩ := named_eq_ok.mp hnamed
  obtain ⟨p, hp, rfl⟩ := List.mem_map.mp (hcalcs ▸ hc)
  exact ⟨p.1, hp⟩

end Strategy

/-! ## The edge of an operand -/

section Edge

variable {strategy : Doc} {names : List Scalar} {name : Scalar} {c : Calculation} {o : Operand}

/-- An operand gives an edge exactly if it refers to a name of the strategy, and the edge runs from
that name to the calculation the operand belongs to. -/
theorem Operand.edge?_eq_some {e : Scalar × Scalar} :
    o.edge? strategy names name c = .ok (some e) ↔
      ∃ v, o.RefersTo v ∧ .text v ∈ names ∧ e = (.text v, name) := by
  unfold edge? RefersTo isReference
  by_cases hkind : o.kind = .reference
  · cases hvalue : o.value with
    | none => by_cases hop : c.operation = .query <;> simp [hkind, hop]
    | some v =>
      by_cases hv : Scalar.text v ∈ names
      · simp [hkind, hv, eq_comm]
      · by_cases hop : c.operation = .query <;> simp [hkind, hv, hop]
  · simp [hkind]

/-- Only a Reference to an unknown name is refused, and not under a QUERY, whose Reference may name
an outside field. -/
theorem Operand.edge?_eq_error {e : StrategyError} :
    o.edge? strategy names name c = .error e ↔
      o.kind = .reference ∧ c.operation ≠ .query ∧ (∀ v, o.value = some v → .text v ∉ names) ∧
        e = .invalid strategy (.unknownReference c.name o.value o.role) := by
  unfold edge? isReference
  by_cases hkind : o.kind = .reference
  · cases hvalue : o.value with
    | none => by_cases hop : c.operation = .query <;> simp [hkind, hop, eq_comm]
    | some v =>
      by_cases hv : Scalar.text v ∈ names
      · simp [hkind, hv]
      · by_cases hop : c.operation = .query <;> simp [hkind, hv, hop, eq_comm]
  · simp [hkind]

end Edge

/-! ## All edges -/

section Edges

variable {strategy : Doc} {named : List (Scalar × Calculation)}

theorem collectEdges_nodup {edges : List (Scalar × Scalar)}
    (h : collectEdges strategy named = .ok edges) : edges.Nodup := by
  obtain ⟨found, -, h⟩ := bind_eq_ok.mp h
  obtain rfl := pure_eq_ok.mp h
  exact Digraph.nodup_eraseDups (found.flatten.filterMap id)

/-- The edges collected are the references between calculations, each counted once. -/
theorem mem_collectEdges {edges : List (Scalar × Scalar)}
    (h : collectEdges strategy named = .ok edges) {a b : Scalar} :
    (a, b) ∈ edges ↔ a ∈ named.map (·.1) ∧ ∃ c, (b, c) ∈ named ∧
      ∃ o ∈ c.operands, ∃ v, o.RefersTo v ∧ a = .text v := by
  obtain ⟨found, hfound, h⟩ := bind_eq_ok.mp h
  obtain rfl := pure_eq_ok.mp h
  have hmem : (a, b) ∈ (found.flatten.filterMap id).eraseDups ↔
      ∃ edges ∈ found, some (a, b) ∈ edges := by
    simp [List.mem_eraseDups]
  rw [hmem]
  constructor
  · rintro ⟨edges, hedges, hab⟩
    obtain ⟨⟨n, c⟩, hp, hc⟩ := (mem_of_mapM_eq_ok hfound).mp hedges
    obtain ⟨o, ho, hedge⟩ := (mem_of_mapM_eq_ok hc).mp hab
    obtain ⟨v, hv, hname, heq⟩ := Operand.edge?_eq_some.mp hedge
    obtain ⟨rfl, rfl⟩ := Prod.mk.inj heq
    exact ⟨hname, c, hp, o, ho, v, hv, rfl⟩
  · rintro ⟨ha, c, hp, o, ho, v, hv, rfl⟩
    obtain ⟨edges, hc⟩ := exists_mapM_eq_ok.mp ⟨found, hfound⟩ (b, c) hp
    refine ⟨edges, (mem_of_mapM_eq_ok hfound).mpr ⟨(b, c), hp, hc⟩, ?_⟩
    exact (mem_of_mapM_eq_ok hc).mpr ⟨o, ho, Operand.edge?_eq_some.mpr ⟨v, hv, ha, rfl⟩⟩

/-- What refuses the edges is the refusal of one operand of one calculation. -/
theorem collectEdges_eq_error {e : StrategyError} (h : collectEdges strategy named = .error e) :
    ∃ p ∈ named, ∃ o ∈ p.2.operands,
      o.edge? strategy (named.map (·.1)) p.1 p.2 = .error e := by
  rcases bind_eq_error.mp h with h | ⟨_, -, h⟩
  · obtain ⟨_, p, _, rfl, -, h⟩ := mapM_eq_error h
    obtain ⟨_, o, _, hops, -, h⟩ := mapM_eq_error h
    exact ⟨p, by simp, o, by simp [hops], h⟩
  · exact absurd h pure_ne_error

end Edges

namespace Strategy

variable {s : Strategy} {named : List (Scalar × Calculation)}

/-- The collected edges are the dependencies. -/
theorem mem_edges (hnamed : s.named = .ok named) {edges : List (Scalar × Scalar)}
    (h : collectEdges s.name named = .ok edges) {a b : Scalar} :
    (a, b) ∈ edges ↔ s.Depends a b := by
  rw [mem_collectEdges h, ← hasName_iff hnamed, Depends]
  simp only [mem_named hnamed, and_assoc]

/-- Collecting the edges succeeds if the references are known. -/
theorem exists_edges (hnamed : s.named = .ok named) :
    (∃ edges, collectEdges s.name named = .ok edges) ↔ s.KnownReferences := by
  constructor
  · rintro ⟨edges, h⟩ c hc hop o ho hkind
    obtain ⟨n, hn⟩ := exists_mem_named hnamed hc
    obtain ⟨found, hfound, -⟩ := bind_eq_ok.mp h
    obtain ⟨es, hes⟩ := exists_mapM_eq_ok.mp ⟨found, hfound⟩ (n, c) hn
    obtain ⟨r, hr⟩ := exists_mapM_eq_ok.mp ⟨es, hes⟩ o ho
    by_contra hno
    have hout : ∀ v, o.value = some v → .text v ∉ named.map (·.1) := fun v hv hmem ↦
      hno ⟨v, hv, (hasName_iff hnamed).mpr hmem⟩
    cases hr.symm.trans (Operand.edge?_eq_error.mpr ⟨hkind, hop, hout, rfl⟩)
  · intro hs
    cases h : collectEdges s.name named with
    | ok edges => exact ⟨edges, rfl⟩
    | error e =>
      obtain ⟨⟨n, c⟩, hp, o, ho, hedge⟩ := collectEdges_eq_error h
      obtain ⟨hkind, hop, hout, -⟩ := Operand.edge?_eq_error.mp hedge
      obtain ⟨v, hv, hname⟩ := hs c ((mem_named hnamed).mp hp).1 hop o ho hkind
      exact absurd ((hasName_iff hnamed).mp hname) (hout v hv)

end Strategy

end ScorePortfolio

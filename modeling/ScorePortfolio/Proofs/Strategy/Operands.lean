import ScorePortfolio.Proofs.Strategy.Dependencies

/-!
# Operands and nodes

A calculation becomes a node if the first operand of each role that its operation needs is of the
right type and has an admissible literal.  `Calculation.CompilesTo` says which node that is;
compiling computes it, and where every reference is known it fails at an operand only.
-/

namespace ScorePortfolio

namespace Calculation

/-! ## What an operation needs -/

/-- The first operand of the role is a reference. -/
def HasReference (c : Calculation) (role : String) : Prop :=
  ∃ o, c.operand? (.text role) = some o ∧ o.kind = .reference

/-- The first operand of the role is a reference to the text. -/
def Refers (c : Calculation) (role v : String) : Prop :=
  ∃ o, c.operand? (.text role) = some o ∧ o.RefersTo v

/-- The first operand of the role is a decimal or an integer that spells the finite number. -/
def HasNumber (c : Calculation) (role : String) (x : Float) : Prop :=
  ∃ o t, c.operand? (.text role) = some o ∧ (o.kind = .decimal ∨ o.kind = .integer) ∧
    o.value = some t ∧ Decimal.double? t = some x ∧ x.isFinite = true

/-- The first operand of the role is an integer that spells the positive one. -/
def HasWindow (c : Calculation) (role : String) (n : Int) : Prop :=
  ∃ o t, c.operand? (.text role) = some o ∧ o.kind = .integer ∧
    o.value = some t ∧ Decimal.integer? t = some n ∧ 1 ≤ n

/-- The first operand of the role, if there is one, is a text or a reference with the value. -/
def HasField (c : Calculation) (role : String) (f : Option String) : Prop :=
  c.operand? (.text role) = none ∧ f = none ∨
    ∃ o, c.operand? (.text role) = some o ∧ (o.kind = .text ∨ o.kind = .reference) ∧ o.value = f

/-- The operands that the operation needs are there, of the right types and with admissible
literals. -/
def HasOperands (c : Calculation) : Prop :=
  match c.operation with
  | .query => ∃ f, c.HasField "field" f
  | .scalar _ => c.HasReference "time_series" ∧ ∃ x, c.HasNumber "scalar" x
  | .series _ => c.HasReference "left" ∧ c.HasReference "right"
  | .sma => c.HasReference "time_series" ∧ ∃ n, c.HasWindow "window_size" n

/-- The operand that the operation needs in the role is missing, of a wrong type or without an
admissible literal. -/
inductive Lacks (c : Calculation) : String → Prop where
  | field : c.operation = .query → (∀ f, ¬ c.HasField "field" f) → Lacks c "field"
  | scalarSource {op} : c.operation = .scalar op → ¬ c.HasReference "time_series" →
      Lacks c "time_series"
  | scalar {op} : c.operation = .scalar op → (∀ x, ¬ c.HasNumber "scalar" x) → Lacks c "scalar"
  | left {op} : c.operation = .series op → ¬ c.HasReference "left" → Lacks c "left"
  | right {op} : c.operation = .series op → ¬ c.HasReference "right" → Lacks c "right"
  | smaSource : c.operation = .sma → ¬ c.HasReference "time_series" → Lacks c "time_series"
  | window : c.operation = .sma → (∀ n, ¬ c.HasWindow "window_size" n) → Lacks c "window_size"

/-- A calculation that lacks an operand of a role it needs does not have its operands. -/
theorem Lacks.not_hasOperands {c : Calculation} {role : String} (h : c.Lacks role) :
    ¬ c.HasOperands := by
  rw [HasOperands]
  cases h with
  | field hop h => rw [hop]; exact fun ⟨f, hf⟩ ↦ h f hf
  | scalarSource hop h => rw [hop]; exact fun hc ↦ h hc.1
  | scalar hop h => rw [hop]; exact fun ⟨_, x, hx⟩ ↦ h x hx
  | left hop h => rw [hop]; exact fun hc ↦ h hc.1
  | right hop h => rw [hop]; exact fun hc ↦ h hc.2
  | smaSource hop h => rw [hop]; exact fun hc ↦ h hc.1
  | window hop h => rw [hop]; exact fun ⟨_, n, hn⟩ ↦ h n hn

/-- The node of a calculation, with positions in an order of names. -/
inductive CompilesTo (c : Calculation) (order : List Scalar) (name : Scalar) : Node → Prop where
  | query {f} : c.operation = .query → c.HasField "field" f →
      CompilesTo c order name (.query name f)
  | scalar {op v x} : c.operation = .scalar op → c.Refers "time_series" v → .text v ∈ order →
      c.HasNumber "scalar" x →
      CompilesTo c order name (.scalar name c.operation (order.idxOf (.text v)) x)
  | series {op v w} : c.operation = .series op → c.Refers "left" v → .text v ∈ order →
      c.Refers "right" w → .text w ∈ order →
      CompilesTo c order name
        (.series name c.operation (order.idxOf (.text v)) (order.idxOf (.text w)))
  | sma {v n} : c.operation = .sma → c.Refers "time_series" v → .text v ∈ order →
      c.HasWindow "window_size" n →
      CompilesTo c order name (.sma name (order.idxOf (.text v)) n)

/-! ## Single operands -/

section Roles

variable {c : Calculation} {role : String} {strategy : Doc} {order : List Scalar}

/-- An operand is found for a role exactly if it is the one under that role and of a kind the role
takes. -/
theorem requiredOf_eq_ok {kinds : List OperandKind} {o : Operand} :
    c.requiredOf role kinds = .ok o ↔ c.operand? (.text role) = some o ∧ o.kind ∈ kinds := by
  rw [requiredOf, required]
  cases c.operand? (.text role) with
  | none => simp [bind_eq_ok]
  | some o' =>
    by_cases hkind : o'.kind ∈ kinds
    · simp only [ok_bind, hkind, if_true, pure_eq_ok, Option.some.injEq]
      exact ⟨fun h ↦ ⟨h, h ▸ hkind⟩, fun h ↦ h.1⟩
    · simp only [ok_bind, hkind, if_false, throw_ne_ok, Option.some.injEq, false_iff, not_and]
      rintro rfl
      exact hkind

/-- What is missing is reported under the name of the calculation and the role. -/
theorem requiredOf_eq_error {kinds : List OperandKind} {e : StrategyError}
    (h : c.requiredOf role kinds = .error e) : ∃ d, e = .operand c.name (.text role) d := by
  rw [requiredOf, required] at h
  cases hop : c.operand? (.text role) with
  | none =>
    simp only [hop] at h
    exact ⟨_, (Except.error.inj h).symm⟩
  | some o =>
    simp only [hop, ok_bind] at h
    split at h
    · exact absurd h pure_ne_error
    · exact ⟨_, (throw_eq_error.mp h).symm⟩

/-- A source is a position exactly if the operand of the role refers to a name of the order, and
then it is the place of that name in it. -/
theorem source_eq_ok {i : Int} :
    c.source strategy order role = .ok i ↔
      ∃ v, c.Refers role v ∧ .text v ∈ order ∧ i = order.idxOf (.text v) := by
  rw [source, bind_eq_ok]
  constructor
  · rintro ⟨o, ho, h⟩
    obtain ⟨hop, hkind⟩ := requiredOf_eq_ok.mp ho
    split at h
    · next k hk =>
      obtain ⟨v, hv, hidx⟩ := Option.bind_eq_some_iff.mp hk
      have hmem : Scalar.text v ∈ order := by
        by_contra hout
        simp [List.idxOf?_eq_none_iff.mpr hout] at hidx
      refine ⟨v, ⟨o, hop, List.mem_singleton.mp hkind, hv⟩, hmem, ?_⟩
      rw [← pure_eq_ok.mp h, List.idxOf_eq_getD_idxOf?, hidx]
      rfl
    · cases h
  · rintro ⟨v, ⟨o, hop, hkind, hv⟩, hmem, rfl⟩
    refine ⟨o, requiredOf_eq_ok.mpr ⟨hop, by simp [hkind]⟩, ?_⟩
    obtain ⟨k, hk⟩ := Option.isSome_iff_exists.mp (List.isSome_idxOf?.mpr hmem)
    simp [hv, hk, List.idxOf_eq_getD_idxOf?]

theorem Refers.source {v : String} (h : c.Refers role v) (hmem : .text v ∈ order) :
    c.source strategy order role = .ok (order.idxOf (.text v)) :=
  source_eq_ok.mpr ⟨v, h, hmem, rfl⟩

/-- The number compiled for a role is the literal of the operand, read as a double. -/
theorem number_eq_ok {x : Float} : c.number role = .ok x ↔ c.HasNumber role x := by
  rw [number, bind_eq_ok, HasNumber]
  constructor
  · rintro ⟨o, ho, h⟩
    obtain ⟨hop, hkind⟩ := requiredOf_eq_ok.mp ho
    split at h
    · cases h
    next t hvalue =>
    split at h
    · cases h
    next y hy =>
    split at h
    · next hfin =>
      obtain rfl := pure_eq_ok.mp h
      exact ⟨o, t, hop, by simpa using hkind, hvalue, hy, hfin⟩
    · cases h
  · rintro ⟨o, t, hop, hkind, hvalue, hx, hfin⟩
    exact ⟨o, requiredOf_eq_ok.mpr ⟨hop, by simpa using hkind⟩, by simp [hvalue, hx, hfin]⟩

/-- The window compiled for a role is the literal of the operand, read as a whole number that is at
least one. -/
theorem window_eq_ok {n : Int} : c.window role = .ok n ↔ c.HasWindow role n := by
  rw [window, bind_eq_ok, HasWindow]
  constructor
  · rintro ⟨o, ho, h⟩
    obtain ⟨hop, hkind⟩ := requiredOf_eq_ok.mp ho
    split at h
    · cases h
    next m hm =>
    obtain ⟨t, hvalue, ht⟩ := Option.bind_eq_some_iff.mp hm
    split at h
    · cases h
    · next hpos =>
      obtain rfl := pure_eq_ok.mp h
      exact ⟨o, t, hop, List.mem_singleton.mp hkind, hvalue, ht, by omega⟩
  · rintro ⟨o, t, hop, hkind, hvalue, ht, hpos⟩
    refine ⟨o, requiredOf_eq_ok.mpr ⟨hop, by simp [hkind]⟩, ?_⟩
    have hlt : ¬ n < 1 := by omega
    simp [hvalue, ht, hlt]

/-- The field compiled is the value of the field operand, or none where no field operand stands. -/
theorem field_eq_ok {f : Option String} : c.field = .ok f ↔ c.HasField "field" f := by
  rw [field, HasField]
  cases c.operand? (.text "field") with
  | none => simp [eq_comm]
  | some o => by_cases hkind : o.kind = .text ∨ o.kind = .reference <;> simp [hkind]

/-- The references of the calculation lead to names of the order. -/
def ResolvedIn (c : Calculation) (order : List Scalar) : Prop :=
  ∀ o ∈ c.operands, o.kind = .reference → ∃ v, o.value = some v ∧ .text v ∈ order

/-- A Reference of a calculation whose names are resolved leads to a name of the order. -/
theorem ResolvedIn.refers (h : c.ResolvedIn order) (hc : c.HasReference role) :
    ∃ v, c.Refers role v ∧ .text v ∈ order := by
  obtain ⟨o, hop, hkind⟩ := hc
  obtain ⟨v, hv, hmem⟩ := h o (List.mem_of_find?_eq_some hop) hkind
  exact ⟨v, ⟨o, hop, hkind, hv⟩, hmem⟩

/-- Where references are resolved, looking one up fails only if the role has none. -/
theorem source_eq_error (hc : c.ResolvedIn order) {e : StrategyError}
    (h : c.source strategy order role = .error e) :
    ¬ c.HasReference role ∧ ∃ d, e = .operand c.name (.text role) d := by
  have hno : ¬ c.HasReference role := fun href ↦ by
    obtain ⟨v, hv, hmem⟩ := hc.refers href
    cases h.symm.trans (hv.source hmem)
  refine ⟨hno, ?_⟩
  rcases bind_eq_error.mp h with hreq | ⟨o, ho, -⟩
  · exact requiredOf_eq_error hreq
  · obtain ⟨hop, hkind⟩ := requiredOf_eq_ok.mp ho
    exact absurd ⟨o, hop, List.mem_singleton.mp hkind⟩ hno

/-- A number is refused only where the role holds none, and the error names the role. -/
theorem number_eq_error {e : StrategyError} (h : c.number role = .error e) :
    (∀ x, ¬ c.HasNumber role x) ∧ ∃ d, e = .operand c.name (.text role) d := by
  refine ⟨fun x hx ↦ absurd (h.symm.trans (number_eq_ok.mpr hx)) nofun, ?_⟩
  rcases bind_eq_error.mp h with hreq | ⟨o, -, h⟩
  · exact requiredOf_eq_error hreq
  split at h
  · exact ⟨_, (throw_eq_error.mp h).symm⟩
  split at h
  · exact ⟨_, (throw_eq_error.mp h).symm⟩
  split at h
  · exact absurd h pure_ne_error
  · exact ⟨_, (throw_eq_error.mp h).symm⟩

/-- A window is refused only where the role holds none, and the error names the role. -/
theorem window_eq_error {e : StrategyError} (h : c.window role = .error e) :
    (∀ n, ¬ c.HasWindow role n) ∧ ∃ d, e = .operand c.name (.text role) d := by
  refine ⟨fun n hn ↦ absurd (h.symm.trans (window_eq_ok.mpr hn)) nofun, ?_⟩
  rcases bind_eq_error.mp h with hreq | ⟨o, -, h⟩
  · exact requiredOf_eq_error hreq
  split at h
  · exact ⟨_, (throw_eq_error.mp h).symm⟩
  split at h
  · exact ⟨_, (throw_eq_error.mp h).symm⟩
  · exact absurd h pure_ne_error

/-- A field is refused only where the calculation has none, and the error names the role
`field`. -/
theorem field_eq_error {e : StrategyError} (h : c.field = .error e) :
    (∀ f, ¬ c.HasField "field" f) ∧ ∃ d, e = .operand c.name (.text "field") d := by
  refine ⟨fun f hf ↦ absurd (h.symm.trans (field_eq_ok.mpr hf)) nofun, ?_⟩
  rw [field] at h
  split at h
  · cases h
  split at h
  · cases h
  · exact ⟨_, (Except.error.inj h).symm⟩

end Roles

/-! ## Nodes -/

section Nodes

variable {c : Calculation} {strategy : Doc} {order : List Scalar} {name : Scalar}

/-- Compiling yields the node of the calculation. -/
theorem compile_eq_ok {node : Node} :
    c.compile strategy order name = .ok node ↔ c.CompilesTo order name node := by
  rw [compile]
  constructor
  · intro h
    split at h
    · next hop =>
      obtain ⟨f, hf, h⟩ := bind_eq_ok.mp h
      exact pure_eq_ok.mp h ▸ .query hop (field_eq_ok.mp hf)
    · next op hop =>
      obtain ⟨i, hi, h⟩ := bind_eq_ok.mp h
      obtain ⟨x, hx, h⟩ := bind_eq_ok.mp h
      obtain ⟨v, hv, hmem, rfl⟩ := source_eq_ok.mp hi
      exact pure_eq_ok.mp h ▸ .scalar hop hv hmem (number_eq_ok.mp hx)
    · next op hop =>
      obtain ⟨i, hi, h⟩ := bind_eq_ok.mp h
      obtain ⟨j, hj, h⟩ := bind_eq_ok.mp h
      obtain ⟨v, hv, hvmem, rfl⟩ := source_eq_ok.mp hi
      obtain ⟨w, hw, hwmem, rfl⟩ := source_eq_ok.mp hj
      exact pure_eq_ok.mp h ▸ .series hop hv hvmem hw hwmem
    · next hop =>
      obtain ⟨i, hi, h⟩ := bind_eq_ok.mp h
      obtain ⟨n, hn, h⟩ := bind_eq_ok.mp h
      obtain ⟨v, hv, hmem, rfl⟩ := source_eq_ok.mp hi
      exact pure_eq_ok.mp h ▸ .sma hop hv hmem (window_eq_ok.mp hn)
  · rintro (⟨hop, hf⟩ | ⟨hop, hv, hmem, hx⟩ | ⟨hop, hv, hvmem, hw, hwmem⟩ | ⟨hop, hv, hmem, hn⟩)
    · simp [hop, field_eq_ok.mpr hf]
    · simp only [hop, hv.source hmem, number_eq_ok.mpr hx, ok_bind, pure_eq_ok]
    · simp only [hop, hv.source hvmem, hw.source hwmem, ok_bind, pure_eq_ok]
    · simp only [hop, hv.source hmem, window_eq_ok.mpr hn, ok_bind, pure_eq_ok]

theorem CompilesTo.name?_eq {node : Node} (h : c.CompilesTo order name node) :
    node.name? = some name := by
  cases h <;> rfl

theorem Refers.exists_mem {role v : String} (h : c.Refers role v) :
    ∃ o ∈ c.operands, o.RefersTo v :=
  h.imp fun _ ho ↦ ⟨List.mem_of_find?_eq_some ho.1, ho.2⟩

/-- A node reads at positions of names that its calculation refers to. -/
theorem CompilesTo.mem_reads {node : Node} (h : c.CompilesTo order name node) {q : Int}
    (hq : q ∈ node.reads) :
    ∃ v, (∃ o ∈ c.operands, o.RefersTo v) ∧ .text v ∈ order ∧ q = order.idxOf (.text v) := by
  cases h with
  | query _ _ => cases hq
  | scalar _ hv hmem _ => exact ⟨_, hv.exists_mem, hmem, List.mem_singleton.mp hq⟩
  | series _ hv hvmem hw hwmem =>
    rcases List.mem_cons.mp hq with hq | hq
    · exact ⟨_, hv.exists_mem, hvmem, hq⟩
    · exact ⟨_, hw.exists_mem, hwmem, List.mem_singleton.mp hq⟩
  | sma _ hv hmem _ => exact ⟨_, hv.exists_mem, hmem, List.mem_singleton.mp hq⟩

/-- Whatever compiles has the operands its operation asks for. -/
theorem CompilesTo.hasOperands {node : Node} (h : c.CompilesTo order name node) :
    c.HasOperands := by
  have hasReference {role v} (h : c.Refers role v) : c.HasReference role :=
    h.imp fun o ho ↦ ⟨ho.1, ho.2.1⟩
  rw [HasOperands]
  cases h with
  | query hop hf => rw [hop]; exact ⟨_, hf⟩
  | scalar hop hv _ hx => rw [hop]; exact ⟨hasReference hv, _, hx⟩
  | series hop hv _ hw _ => rw [hop]; exact ⟨hasReference hv, hasReference hw⟩
  | sma hop hv _ hn => rw [hop]; exact ⟨hasReference hv, _, hn⟩

/-- Where references are resolved, queries apart, compiling fails only at an operand that the
calculation lacks. -/
theorem compile_eq_error (hc : c.operation ≠ .query → c.ResolvedIn order) {e : StrategyError}
    (h : c.compile strategy order name = .error e) :
    ∃ role d, c.Lacks role ∧ e = .operand c.name (.text role) d := by
  rw [compile] at h
  split at h
  · next hop =>
    rcases bind_eq_error.mp h with h | ⟨_, -, h⟩
    · obtain ⟨hno, d, hd⟩ := field_eq_error h
      exact ⟨_, d, .field hop hno, hd⟩
    · exact absurd h pure_ne_error
  · next op hop =>
    rcases bind_eq_error.mp h with h | ⟨_, -, h⟩
    · obtain ⟨hno, d, hd⟩ := source_eq_error (hc (by simp [hop])) h
      exact ⟨_, d, .scalarSource hop hno, hd⟩
    rcases bind_eq_error.mp h with h | ⟨_, -, h⟩
    · obtain ⟨hno, d, hd⟩ := number_eq_error h
      exact ⟨_, d, .scalar hop hno, hd⟩
    · exact absurd h pure_ne_error
  · next op hop =>
    rcases bind_eq_error.mp h with h | ⟨_, -, h⟩
    · obtain ⟨hno, d, hd⟩ := source_eq_error (hc (by simp [hop])) h
      exact ⟨_, d, .left hop hno, hd⟩
    rcases bind_eq_error.mp h with h | ⟨_, -, h⟩
    · obtain ⟨hno, d, hd⟩ := source_eq_error (hc (by simp [hop])) h
      exact ⟨_, d, .right hop hno, hd⟩
    · exact absurd h pure_ne_error
  · next hop =>
    rcases bind_eq_error.mp h with h | ⟨_, -, h⟩
    · obtain ⟨hno, d, hd⟩ := source_eq_error (hc (by simp [hop])) h
      exact ⟨_, d, .smaSource hop hno, hd⟩
    rcases bind_eq_error.mp h with h | ⟨_, -, h⟩
    · obtain ⟨hno, d, hd⟩ := window_eq_error h
      exact ⟨_, d, .window hop hno, hd⟩
    · exact absurd h pure_ne_error

end Nodes

end Calculation

end ScorePortfolio

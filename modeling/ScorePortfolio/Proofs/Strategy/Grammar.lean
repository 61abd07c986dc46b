import ScorePortfolio.Proofs.Strategy.Reading

/-!
# The grammar of strategy documents

Which documents describe a strategy can be said without the reader: mappings with names that count
as a yes, words for operations in any letters, words for types as they are, and lists of such
mappings, where nothing that counts as a no may stand in the place of a list of operands.  The
reader goes through a document in its own order, and of a document outside the grammar it reports
the first defect: everything before it is as the grammar wants it.
-/

namespace ScorePortfolio

/-! ## The grammar -/

namespace Doc

/-- The document of an operand. -/
structure IsOperand (doc : Doc) : Prop where
  isMap : doc.isMap = true
  role : (doc.valueOf "name").isTruthy = true
  kind : ∃ kind : OperandKind, doc.valueOf "type" = .text kind.word

/-- What stands before the operands of a calculation. -/
structure HeadsCalculation (doc : Doc) : Prop where
  isMap : doc.isMap = true
  name : (doc.valueOf "name").isTruthy = true
  /-- The capital form of the operation is one of the words. -/
  operation : ∃ op : Operation, Text.capitals (doc.valueOf "operation").asText = op.word

/-- The document of a calculation. -/
structure IsCalculation (doc : Doc) : Prop extends HeadsCalculation doc where
  /-- The operands are absent or count as a no, or they are a list. -/
  operands : (doc.valueOf "operands").isTruthy = false ∨
    ∃ items, doc.valueOf "operands" = .list items ∧ ∀ item ∈ items, item.IsOperand

/-- What stands before the calculations of a strategy. -/
structure HeadsStrategy (doc : Doc) : Prop where
  isMap : doc.isMap = true
  name : (doc.valueOf "name").isTruthy = true
  score : (doc.valueOf "score").isMap = true ∧
    ((doc.valueOf "score").valueOf "calc").isTruthy = true

/-- The document of a strategy. -/
structure IsStrategy (doc : Doc) : Prop extends HeadsStrategy doc where
  calculations : ∃ items, doc.valueOf "calcs" = .list items ∧ ∀ item ∈ items, item.IsCalculation

end Doc

/-! ## Defects -/

/-- The defect of a document that describes no operand of the calculation of a name. -/
inductive Operand.Refused (calculation : Doc) (doc : Doc) : StrategyError → Prop where
  | notMapping : doc.isMap = false → Refused calculation doc .notMapping
  | unnamed : doc.isMap = true → (doc.valueOf "name").isTruthy = false →
      Refused calculation doc (.operand calculation unnamedRole .unnamed)
  | unknownKind : doc.isMap = true → (doc.valueOf "name").isTruthy = true →
      (∀ kind : OperandKind, doc.valueOf "type" ≠ .text kind.word) →
      Refused calculation doc
        (.operand calculation (doc.valueOf "name") (.unknownKind (doc.valueOf "type")))

/-- The first defect of a document that describes no calculation of the strategy of a name. -/
inductive Calculation.Refused (strategy : Doc) (doc : Doc) : StrategyError → Prop where
  | notMapping : doc.isMap = false → Refused strategy doc .notMapping
  | unnamed : doc.isMap = true → (doc.valueOf "name").isTruthy = false →
      Refused strategy doc (.invalid strategy .unnamedCalculation)
  | unknownOperation : doc.isMap = true → (doc.valueOf "name").isTruthy = true →
      (∀ op : Operation, Text.capitals (doc.valueOf "operation").asText ≠ op.word) →
      Refused strategy doc (.invalid strategy
        (.unknownOperation (doc.valueOf "name") (doc.valueOf "operation")))
  /-- The items are the keys of a mapping or the characters of a text, and so have no entries. -/
  | textItems : doc.HeadsCalculation → (doc.valueOf "operands").isTruthy = true →
      ((doc.valueOf "operands").isMap = true ∨ ∃ t, doc.valueOf "operands" = .text t) →
      Refused strategy doc .notMapping
  /-- A number or a truth value has no items. -/
  | noItems {value} : doc.HeadsCalculation → (doc.valueOf "operands").isTruthy = true →
      doc.valueOf "operands" = .scalar value → (∀ t, value ≠ .text t) →
      Refused strategy doc .notIterable
  | operand {before item after e} : doc.HeadsCalculation →
      doc.valueOf "operands" = .list (before ++ item :: after) →
      (∀ other ∈ before, other.IsOperand) → Operand.Refused (doc.valueOf "name") item e →
      Refused strategy doc e

/-- The first defect of a document that describes no strategy. -/
inductive Strategy.Refused (doc : Doc) : StrategyError → Prop where
  | notMapping : doc.isMap = false → Refused doc .notMapping
  | noName : doc.isMap = true → (doc.valueOf "name").isTruthy = false →
      Refused doc (.invalid unknownName .noName)
  | noScore : doc.isMap = true → (doc.valueOf "name").isTruthy = true →
      ¬ ((doc.valueOf "score").isMap = true ∧
        ((doc.valueOf "score").valueOf "calc").isTruthy = true) →
      Refused doc (.invalid (doc.valueOf "name") .noScore)
  | noCalculationList : doc.HeadsStrategy → (∀ items, doc.valueOf "calcs" ≠ .list items) →
      Refused doc (.invalid (doc.valueOf "name") .noCalculationList)
  | calculation {before item after e} : doc.HeadsStrategy →
      doc.valueOf "calcs" = .list (before ++ item :: after) →
      (∀ other ∈ before, other.IsCalculation) →
      Calculation.Refused (doc.valueOf "name") item e → Refused doc e

/-- The ways in which the reading of the strategy of a name can fail. -/
inductive StrategyError.OfReading (strategy : Doc) : StrategyError → Prop where
  | invalid (defect) : OfReading strategy (.invalid strategy defect)
  | operand (calculation role defect) : OfReading strategy (.operand calculation role defect)
  | notMapping : OfReading strategy .notMapping
  | notIterable : OfReading strategy .notIterable

theorem Operand.Refused.ofReading {calculation doc : Doc} {e : StrategyError}
    (h : Refused calculation doc e) (strategy : Doc) : e.OfReading strategy := by
  cases h with
  | notMapping => exact .notMapping
  | unnamed | unknownKind => exact .operand ..

/-- A refused calculation is refused by the reading, under the name of the strategy that lists
it. -/
theorem Calculation.Refused.ofReading {strategy doc : Doc} {e : StrategyError}
    (h : Refused strategy doc e) : e.OfReading strategy := by
  cases h with
  | notMapping | textItems => exact .notMapping
  | unnamed | unknownOperation => exact .invalid _
  | noItems => exact .notIterable
  | operand _ _ _ h => exact h.ofReading strategy

/-! ## Parts of documents -/

namespace Doc

variable {doc : Doc} {key : String}

theorem entry_of_isMap (h : doc.isMap = true) (key : String) :
    doc.entry key = .ok (doc.valueOf key) :=
  entry_eq_ok.mpr ⟨h, rfl⟩

/-- Whatever is no mapping has no entries to ask for. -/
theorem entry_of_not_isMap (h : doc.isMap = false) (key : String) :
    doc.entry key = .error .notMapping := by
  cases doc with
  | map entries => cases h
  | scalar a | list items => rfl

theorem valueOf_eq_list {items : List Doc} :
    doc.valueOf key = .list items ↔ doc.field? key = some (.list items) := by
  rw [valueOf]
  cases doc.field? key <;> simp

theorem scoreName_eq (doc : Doc) :
    Strategy.scoreName doc = (doc.valueOf "score").valueOf "calc" := by
  rw [Strategy.scoreName, valueOf, valueOf]
  cases doc.field? "score" <;> rfl

/-- Only a mapping has a value that counts as a yes. -/
theorem isMap_of_valueOf (h : (doc.valueOf key).isTruthy = true) : doc.isMap = true := by
  cases doc with
  | map entries => rfl
  | scalar a | list items => cases h

end Doc

/-- An operation is read from its word in any mixture of cases. -/
theorem Operation.parse?_eq_some {s : String} {op : Operation} :
    parse? s = some op ↔ Text.capitals s = op.word := by
  rw [parse?]
  constructor
  · intro h
    rw [ofWord?] at h
    have hword := List.find?_some h
    exact (eq_of_beq hword).symm
  · intro h
    rw [h, ofWord?_word]

theorem Operation.parse?_eq_none {s : String} :
    parse? s = none ↔ ∀ op : Operation, Text.capitals s ≠ op.word := by
  rw [Option.eq_none_iff_forall_ne_some]
  exact forall_congr' fun op ↦ not_congr parse?_eq_some

/-! ## Operands -/

namespace Operand

variable {calculation doc : Doc}

/-- The documents read as operands are those of the form of an operand. -/
theorem exists_ofDoc : (∃ o, ofDoc calculation doc = .ok o) ↔ doc.IsOperand := by
  simp only [ofDoc_eq_ok]
  constructor
  · rintro ⟨o, h⟩
    exact ⟨h.isMap, h.role ▸ h.role_isTruthy, o.kind, h.kind⟩
  · rintro ⟨hmap, hrole, kind, hkind⟩
    exact ⟨⟨doc.valueOf "name", kind, (doc.valueOf "value").literal?⟩, hmap, rfl, hrole, hkind, rfl⟩

/-- Reading an operand fails exactly with its first defect. -/
theorem ofDoc_eq_error {e : StrategyError} :
    ofDoc calculation doc = .error e ↔ Refused calculation doc e := by
  constructor
  · intro h
    rw [ofDoc] at h
    cases hmap : doc.isMap with
    | false =>
      rw [Doc.entry_of_not_isMap hmap] at h
      exact Except.error.inj h ▸ .notMapping hmap
    | true =>
      simp only [Doc.entry_of_isMap hmap, ok_bind] at h
      split at h
      · next hname => exact Except.error.inj h ▸ .unnamed hmap (by simpa using hname)
      next hname =>
      have hname : (doc.valueOf "name").isTruthy = true := by simpa using hname
      have hunknown (hkind : ∀ kind : OperandKind, doc.valueOf "type" ≠ .text kind.word)
          (h : StrategyError.operand calculation (doc.valueOf "name")
            (.unknownKind (doc.valueOf "type")) = e) : Refused calculation doc e :=
        h ▸ .unknownKind hmap hname hkind
      split at h
      · next word hword =>
        split at h
        · cases h
        next hnone =>
        refine hunknown (fun kind hkind ↦ ?_) (Except.error.inj h)
        obtain rfl : word = kind.word := by simpa [hword] using hkind
        rw [OperandKind.ofWord?_word] at hnone
        cases hnone
      · next hword => exact hunknown (fun kind ↦ hword kind.word) (Except.error.inj h)
  · intro h
    cases h with
    | notMapping hmap =>
      rw [ofDoc, Doc.entry_of_not_isMap hmap]
      rfl
    | unnamed hmap hname => simp [ofDoc, Doc.entry_of_isMap hmap, hname]
    | unknownKind hmap hname hkind =>
      simp only [ofDoc, Doc.entry_of_isMap hmap, ok_bind, hname, Bool.not_true,
        Bool.false_eq_true, if_false]
      split
      · next word hword =>
        cases hknown : OperandKind.ofWord? word with
        | none => rfl
        | some kind => exact absurd (OperandKind.ofWord?_eq_some.mp hknown ▸ hword) (hkind kind)
      · rfl

end Operand

/-! ## Calculations -/

namespace Calculation

variable {strategy doc : Doc}

theorem operandItems_of_not_isTruthy (h : doc.isTruthy = false) : operandItems doc = .ok [] := by
  cases doc with
  | list xs => cases xs with
    | nil => rfl
    | cons x xs => cases h
  | map entries => simp [operandItems, h]
  | scalar value => cases value <;> simp [operandItems, h]

/-- Operands come from a list, and anything that counts as nothing stands for no operands. -/
theorem operandItems_eq_ok {items : List Doc} :
    operandItems doc = .ok items ↔ doc = .list items ∨ doc.isTruthy = false ∧ items = [] := by
  constructor
  · intro h
    cases htruthy : doc.isTruthy with
    | false =>
      rw [operandItems_of_not_isTruthy htruthy] at h
      exact .inr ⟨rfl, (Except.ok.inj h).symm⟩
    | true =>
      cases doc with
      | list xs => exact .inl (congrArg Doc.list (Except.ok.inj h))
      | map entries => simp [operandItems, htruthy] at h
      | scalar value => cases value <;> simp [operandItems, htruthy] at h
  · rintro (rfl | ⟨h, rfl⟩)
    · rfl
    · exact operandItems_of_not_isTruthy h

/-- What counts as a yes and is no list has no items that are operands. -/
theorem operandItems_eq_error {e : StrategyError} :
    operandItems doc = .error e ↔ doc.isTruthy = true ∧
      ((doc.isMap = true ∨ ∃ t, doc = .text t) ∧ e = .notMapping ∨
        (∃ value, doc = .scalar value ∧ ∀ t, value ≠ .text t) ∧ e = .notIterable) := by
  cases htruthy : doc.isTruthy with
  | false => simp [operandItems_of_not_isTruthy htruthy]
  | true =>
    cases doc with
    | list xs => simp [operandItems, Doc.isMap]
    | map entries => simp [operandItems, htruthy, Doc.isMap, @eq_comm _ e]
    | scalar value => cases value <;> simp [operandItems, htruthy, Doc.isMap, @eq_comm _ e]

/-- After a head there are only the operands to read. -/
theorem ofDoc_of_heads (strategy : Doc) (h : doc.HeadsCalculation) :
    ∃ op : Operation, Text.capitals (doc.valueOf "operation").asText = op.word ∧
      ofDoc strategy doc = operandItems (doc.valueOf "operands") >>= fun items ↦
        items.mapM (Operand.ofDoc (doc.valueOf "name")) >>= fun operands ↦
          .ok ⟨doc.valueOf "name", op, operands⟩ := by
  obtain ⟨op, hop⟩ := h.operation
  refine ⟨op, hop, ?_⟩
  rw [← Operation.parse?_eq_some] at hop
  simp [ofDoc, Doc.entry_of_isMap h.isMap, h.name, hop]

/-- The documents read as calculations are those of the form of a calculation. -/
theorem exists_ofDoc : (∃ c, ofDoc strategy doc = .ok c) ↔ doc.IsCalculation := by
  constructor
  · rintro ⟨c, hc⟩
    have hdoc := ofDoc_eq_ok.mp hc
    have hhead : doc.HeadsCalculation := ⟨hdoc.isMap, hdoc.name ▸ hdoc.name_isTruthy,
      c.operation, Operation.parse?_eq_some.mp hdoc.operation⟩
    obtain ⟨op, -, hread⟩ := ofDoc_of_heads strategy hhead
    rw [hread] at hc
    obtain ⟨items, hitems, hc⟩ := bind_eq_ok.mp hc
    obtain ⟨operands, hoperands, -⟩ := bind_eq_ok.mp hc
    refine ⟨hhead, ?_⟩
    rcases operandItems_eq_ok.mp hitems with hlist | ⟨hfalse, -⟩
    · exact .inr ⟨items, hlist, fun item hitem ↦
        Operand.exists_ofDoc.mp (exists_mapM_eq_ok.mp ⟨operands, hoperands⟩ item hitem)⟩
    · exact .inl hfalse
  · intro h
    obtain ⟨op, -, hread⟩ := ofDoc_of_heads strategy h.toHeadsCalculation
    rw [hread]
    rcases h.operands with hfalse | ⟨items, hlist, hitems⟩
    · exact ⟨_, bind_eq_ok.mpr ⟨[], operandItems_eq_ok.mpr (.inr ⟨hfalse, rfl⟩), rfl⟩⟩
    · obtain ⟨operands, hoperands⟩ := exists_mapM_eq_ok.mpr fun item hitem ↦
        Operand.exists_ofDoc.mpr (hitems item hitem)
      exact ⟨_, bind_eq_ok.mpr ⟨items, operandItems_eq_ok.mpr (.inl hlist),
        bind_eq_ok.mpr ⟨operands, hoperands, rfl⟩⟩⟩

/-- Reading a calculation fails exactly with its first defect. -/
theorem ofDoc_eq_error {e : StrategyError} :
    ofDoc strategy doc = .error e ↔ Refused strategy doc e := by
  constructor
  · intro h
    cases hmap : doc.isMap with
    | false =>
      rw [ofDoc, Doc.entry_of_not_isMap hmap] at h
      exact Except.error.inj h ▸ .notMapping hmap
    | true =>
    cases hname : (doc.valueOf "name").isTruthy with
    | false =>
      simp only [ofDoc, Doc.entry_of_isMap hmap, ok_bind, hname] at h
      exact Except.error.inj h ▸ .unnamed hmap hname
    | true =>
    cases hop : Operation.parse? (doc.valueOf "operation").asText with
    | none =>
      simp only [ofDoc, Doc.entry_of_isMap hmap, ok_bind, hname, hop] at h
      exact Except.error.inj h ▸
        .unknownOperation hmap hname (Operation.parse?_eq_none.mp hop)
    | some op =>
    have hhead : doc.HeadsCalculation := ⟨hmap, hname, op, Operation.parse?_eq_some.mp hop⟩
    obtain ⟨op, -, hread⟩ := ofDoc_of_heads strategy hhead
    rw [hread] at h
    rcases bind_eq_error.mp h with h | ⟨items, hitems, h⟩
    · obtain ⟨htruthy, ⟨hkeys, rfl⟩ | ⟨⟨value, hvalue, htext⟩, rfl⟩⟩ := operandItems_eq_error.mp h
      · exact .textItems hhead htruthy hkeys
      · exact .noItems hhead htruthy hvalue htext
    · rcases bind_eq_error.mp h with h | ⟨operands, -, h⟩
      · obtain ⟨before, item, after, rfl, hbefore, hitem⟩ := mapM_eq_error_iff.mp h
        rcases operandItems_eq_ok.mp hitems with hlist | ⟨-, hnil⟩
        · exact .operand hhead hlist (fun other hother ↦
            Operand.exists_ofDoc.mp (hbefore other hother)) (Operand.ofDoc_eq_error.mp hitem)
        · simp at hnil
      · cases h
  · intro h
    cases h with
    | notMapping hmap =>
      rw [ofDoc, Doc.entry_of_not_isMap hmap]
      rfl
    | unnamed hmap hname => simp [ofDoc, Doc.entry_of_isMap hmap, hname]
    | unknownOperation hmap hname hop =>
      simp [ofDoc, Doc.entry_of_isMap hmap, hname, Operation.parse?_eq_none.mpr hop]
    | textItems hhead htruthy hkeys =>
      obtain ⟨op, -, hread⟩ := ofDoc_of_heads strategy hhead
      exact hread ▸ bind_eq_error.mpr
        (.inl (operandItems_eq_error.mpr ⟨htruthy, .inl ⟨hkeys, rfl⟩⟩))
    | noItems hhead htruthy hvalue htext =>
      obtain ⟨op, -, hread⟩ := ofDoc_of_heads strategy hhead
      exact hread ▸ bind_eq_error.mpr
        (.inl (operandItems_eq_error.mpr ⟨htruthy, .inr ⟨⟨_, hvalue, htext⟩, rfl⟩⟩))
    | operand hhead hlist hbefore hitem =>
      obtain ⟨op, -, hread⟩ := ofDoc_of_heads strategy hhead
      exact hread ▸ bind_eq_error.mpr (.inr ⟨_, operandItems_eq_ok.mpr (.inl hlist),
        bind_eq_error.mpr (.inl (mapM_eq_error_iff.mpr ⟨_, _, _, rfl, fun other hother ↦
          Operand.exists_ofDoc.mpr (hbefore other hother), Operand.ofDoc_eq_error.mpr hitem⟩))⟩)

end Calculation

/-! ## Strategies -/

namespace Strategy

variable {doc : Doc}

/-- After a head with a list there are only the calculations to read. -/
theorem ofDoc_of_heads (h : doc.HeadsStrategy) {items : List Doc}
    (hitems : doc.valueOf "calcs" = .list items) :
    ofDoc doc = items.mapM (Calculation.ofDoc (doc.valueOf "name")) >>= fun calculations ↦
      .ok ⟨doc.valueOf "name", scoreName doc, calculations⟩ := by
  have hscore : (scoreName doc).isTruthy = true := Doc.scoreName_eq doc ▸ h.score.2
  simp [ofDoc, Doc.entry_of_isMap h.isMap, h.name, hscore, Doc.valueOf_eq_list.mp hitems]

/-- A strategy whose calculations are no list is refused under the name it gives itself. -/
theorem ofDoc_of_no_list (h : doc.HeadsStrategy)
    (hitems : ∀ items, doc.valueOf "calcs" ≠ .list items) :
    ofDoc doc = .error (.invalid (doc.valueOf "name") .noCalculationList) := by
  have hscore : (scoreName doc).isTruthy = true := Doc.scoreName_eq doc ▸ h.score.2
  simp only [ofDoc, Doc.entry_of_isMap h.isMap, ok_bind, h.name, hscore]
  cases hfield : doc.field? "calcs" with
  | none => rfl
  | some value =>
    cases value with
    | list items => exact absurd (Doc.valueOf_eq_list.mpr hfield) (hitems items)
    | scalar a | map entries => rfl

/-- The documents read as strategies are those of the form of a strategy. -/
theorem exists_ofDoc : (∃ s, ofDoc doc = .ok s) ↔ doc.IsStrategy := by
  constructor
  · rintro ⟨s, hs⟩
    have hdoc := ofDoc_eq_ok.mp hs
    have hscore : ((doc.valueOf "score").valueOf "calc").isTruthy = true :=
      Doc.scoreName_eq doc ▸ hdoc.score ▸ hdoc.score_isTruthy
    have hhead : doc.HeadsStrategy :=
      ⟨hdoc.isMap, hdoc.name ▸ hdoc.name_isTruthy, Doc.isMap_of_valueOf hscore, hscore⟩
    obtain ⟨items, hitems, -⟩ := hdoc.calculations
    rw [← Doc.valueOf_eq_list] at hitems
    rw [ofDoc_of_heads hhead hitems] at hs
    obtain ⟨calculations, hcalculations, -⟩ := bind_eq_ok.mp hs
    exact ⟨hhead, items, hitems, fun item hitem ↦
      Calculation.exists_ofDoc.mp (exists_mapM_eq_ok.mp ⟨calculations, hcalculations⟩ item hitem)⟩
  · intro h
    obtain ⟨items, hitems, hall⟩ := h.calculations
    obtain ⟨calculations, hcalculations⟩ := exists_mapM_eq_ok.mpr fun item hitem ↦
      Calculation.exists_ofDoc.mpr (hall item hitem)
    rw [ofDoc_of_heads h.toHeadsStrategy hitems]
    exact ⟨_, bind_eq_ok.mpr ⟨calculations, hcalculations, rfl⟩⟩

/-- Reading a strategy fails exactly with its first defect. -/
theorem ofDoc_eq_error {e : StrategyError} : ofDoc doc = .error e ↔ Refused doc e := by
  constructor
  · intro h
    cases hmap : doc.isMap with
    | false =>
      rw [ofDoc, Doc.entry_of_not_isMap hmap] at h
      exact Except.error.inj h ▸ .notMapping hmap
    | true =>
    cases hname : (doc.valueOf "name").isTruthy with
    | false =>
      simp only [ofDoc, Doc.entry_of_isMap hmap, ok_bind, hname] at h
      exact Except.error.inj h ▸ .noName hmap hname
    | true =>
    cases hscore : (scoreName doc).isTruthy with
    | false =>
      simp only [ofDoc, Doc.entry_of_isMap hmap, ok_bind, hname, hscore] at h
      rw [Doc.scoreName_eq] at hscore
      exact Except.error.inj h ▸ .noScore hmap hname (by simp [hscore])
    | true =>
    rw [Doc.scoreName_eq] at hscore
    have hhead : doc.HeadsStrategy := ⟨hmap, hname, Doc.isMap_of_valueOf hscore, hscore⟩
    by_cases hitems : ∃ items, doc.valueOf "calcs" = .list items
    · obtain ⟨items, hitems⟩ := hitems
      rw [ofDoc_of_heads hhead hitems] at h
      rcases bind_eq_error.mp h with h | ⟨calculations, -, h⟩
      · obtain ⟨before, item, after, rfl, hbefore, hitem⟩ := mapM_eq_error_iff.mp h
        exact .calculation hhead hitems (fun other hother ↦
          Calculation.exists_ofDoc.mp (hbefore other hother))
          (Calculation.ofDoc_eq_error.mp hitem)
      · cases h
    · have hitems : ∀ items, doc.valueOf "calcs" ≠ .list items := not_exists.mp hitems
      rw [ofDoc_of_no_list hhead hitems] at h
      exact Except.error.inj h ▸ .noCalculationList hhead hitems
  · intro h
    cases h with
    | notMapping hmap =>
      rw [ofDoc, Doc.entry_of_not_isMap hmap]
      rfl
    | noName hmap hname => simp [ofDoc, Doc.entry_of_isMap hmap, hname]
    | noScore hmap hname hscore =>
      have hscore : (scoreName doc).isTruthy = false := by
        rw [Doc.scoreName_eq]
        exact Bool.eq_false_iff.mpr fun h ↦ hscore ⟨Doc.isMap_of_valueOf h, h⟩
      simp [ofDoc, Doc.entry_of_isMap hmap, hname, hscore]
    | noCalculationList hhead hitems => exact ofDoc_of_no_list hhead hitems
    | calculation hhead hitems hbefore hitem =>
      exact ofDoc_of_heads hhead hitems ▸ bind_eq_error.mpr (.inl (mapM_eq_error_iff.mpr
        ⟨_, _, _, rfl, fun other hother ↦ Calculation.exists_ofDoc.mpr (hbefore other hother),
          Calculation.ofDoc_eq_error.mpr hitem⟩))

/-- The strategy's name in the reports on the document: its own one as soon as it has one. -/
def reportedName (doc : Doc) : Doc :=
  if (doc.valueOf "name").isTruthy then doc.valueOf "name" else unknownName

theorem reportedName_of_isTruthy (h : (doc.valueOf "name").isTruthy = true) :
    reportedName doc = doc.valueOf "name" := if_pos h

/-- Every defect of a document is reported by the reading, under the name the document reports. -/
theorem Refused.ofReading {e : StrategyError} (h : Refused doc e) :
    e.OfReading (reportedName doc) := by
  cases h with
  | notMapping => exact .notMapping
  | noName _ hname =>
    have hreported : reportedName doc = unknownName := if_neg (by simp [hname])
    exact hreported ▸ .invalid _
  | noScore _ hname _ => exact reportedName_of_isTruthy hname ▸ .invalid _
  | noCalculationList hhead _ => exact reportedName_of_isTruthy hhead.name ▸ .invalid _
  | calculation hhead _ _ h => exact reportedName_of_isTruthy hhead.name ▸ h.ofReading

/-- A document is read as a strategy if it is one in the grammar, and then as the strategy that it
describes, part by part in its own order.  Of any other document the first defect is reported, in
one of four ways, and where the strategy has a name the report on it has this name. -/
theorem ofDoc_outcome (doc : Doc) :
    ((∃ s, ofDoc doc = .ok s) ↔ doc.IsStrategy) ∧
      (∀ s, ofDoc doc = .ok s ↔ s.DescribedBy doc) ∧
      (∀ e, ofDoc doc = .error e ↔ Refused doc e) ∧
      ∀ e, ofDoc doc = .error e → e.OfReading (reportedName doc) :=
  ⟨exists_ofDoc, fun _ ↦ ofDoc_eq_ok, fun _ ↦ ofDoc_eq_error, fun _ h ↦
    (ofDoc_eq_error.mp h).ofReading⟩

/-- The operands of the first calculation come before the name of the second. -/
example : ofDoc (Doc.record [
    ("name", .text "mean"), ("score", Doc.record [("calc", .text "price")]), ("calcs", .list [
      Doc.record [("name", .text "price"), ("operation", .text "query"), ("operands", .int 3)],
      Doc.record [("operation", .text "query")]])]) = .error .notIterable := rfl

end Strategy

end ScorePortfolio

import ScorePortfolio.Graph.Build
import ScorePortfolio.Proofs.Traversal
import ScorePortfolio.Strategy.Reading

/-!
# Strategies and their documents

Reading settles what a document leaves open: the capitals of an operation, the text of a value that
is none, operands that are absent or empty.  A relation says which strategies a document describes,
without the order in which the reader looks at its parts.  A strategy that some document describes
is described by its own document, so it is read back as it was written.
-/

namespace ScorePortfolio

/-! ## Entries of documents -/

namespace Doc

/-- The value of a key, null where it is absent. -/
def valueOf (doc : Doc) (key : String) : Doc := (doc.field? key).getD .null

theorem entry_eq_ok {doc value : Doc} {key : String} :
    doc.entry key = .ok value ↔ doc.isMap = true ∧ doc.valueOf key = value := by
  cases doc <;> simp [entry, isMap, valueOf]

theorem field?_record (fields : List (String × Doc)) (key : String) :
    (record fields).field? key = fields.lookup key := by
  show (List.find? _ (fields.map fun e ↦ (Scalar.text e.1, e.2))).map (·.2) = _
  induction fields with
  | nil => rfl
  | cons e fields ih =>
    obtain ⟨k, v⟩ := e
    rw [List.map_cons, List.find?_cons, List.lookup_cons, Scalar.same_text]
    by_cases hk : key = k
    · simp [hk]
    · rw [beq_false_of_ne hk, ← ih, decide_eq_false (Ne.symm hk)]

theorem valueOf_record (fields : List (String × Doc)) (key : String) :
    (record fields).valueOf key = (fields.lookup key).getD .null := by
  rw [valueOf, field?_record]

end Doc

/-! ## What a document describes -/

/-- A document describes an operand. -/
structure Operand.DescribedBy (o : Operand) (doc : Doc) : Prop where
  isMap : doc.isMap = true
  role : doc.valueOf "name" = o.role
  role_isTruthy : o.role.isTruthy = true
  kind : doc.valueOf "type" = .text o.kind.word
  value : (doc.valueOf "value").literal? = o.value

/-- A document describes a calculation. -/
structure Calculation.DescribedBy (c : Calculation) (doc : Doc) : Prop where
  isMap : doc.isMap = true
  name : doc.valueOf "name" = c.name
  name_isTruthy : c.name.isTruthy = true
  operation : Operation.parse? (doc.valueOf "operation").asText = some c.operation
  operands : ∃ items, operandItems (doc.valueOf "operands") = .ok items ∧
    List.Forall₂ (fun item o ↦ o.DescribedBy item) items c.operands

/-- A document describes a strategy. -/
structure Strategy.DescribedBy (s : Strategy) (doc : Doc) : Prop where
  isMap : doc.isMap = true
  name : doc.valueOf "name" = s.name
  name_isTruthy : s.name.isTruthy = true
  score : scoreName doc = s.score
  score_isTruthy : s.score.isTruthy = true
  calculations : ∃ items, doc.field? "calcs" = some (.list items) ∧
    List.Forall₂ (fun item c ↦ c.DescribedBy item) items s.calculations

/-! ## Reading -/

/-- Each kind of operand is read from its own word and from no other. -/
theorem OperandKind.ofWord?_eq_some {word : String} {kind : OperandKind} :
    ofWord? word = some kind ↔ word = kind.word := by
  constructor
  · intro h
    have hword := List.find?_some h
    exact (eq_of_beq hword).symm
  · rintro rfl
    exact ofWord?_word kind

/-- A document is read as the operand that it describes. -/
theorem Operand.ofDoc_eq_ok {calculation doc : Doc} {o : Operand} :
    ofDoc calculation doc = .ok o ↔ o.DescribedBy doc := by
  rw [ofDoc, bind_eq_ok]
  constructor
  · rintro ⟨role, hrole, h⟩
    obtain ⟨hmap, hrole⟩ := Doc.entry_eq_ok.mp hrole
    split at h
    · cases h
    next htruthy =>
    obtain ⟨kind, hkind, h⟩ := bind_eq_ok.mp h
    obtain ⟨-, rfl⟩ := Doc.entry_eq_ok.mp hkind
    split at h
    · next word hword =>
      split at h
      · next known hknown =>
        obtain ⟨value, hvalue, h⟩ := bind_eq_ok.mp h
        obtain ⟨-, rfl⟩ := Doc.entry_eq_ok.mp hvalue
        obtain rfl := Except.ok.inj h
        rw [OperandKind.ofWord?_eq_some.mp hknown] at hword
        exact ⟨hmap, hrole, by simpa using htruthy, hword, rfl⟩
      · cases h
    · cases h
  · intro h
    have hentry {key : String} : doc.entry key = .ok (doc.valueOf key) :=
      Doc.entry_eq_ok.mpr ⟨h.isMap, rfl⟩
    refine ⟨o.role, Doc.entry_eq_ok.mpr ⟨h.isMap, h.role⟩, ?_⟩
    simp only [h.role_isTruthy, hentry, ok_bind, h.kind, OperandKind.ofWord?_word, h.value]
    rfl

/-- A document is read as the calculation that it describes. -/
theorem Calculation.ofDoc_eq_ok {strategy doc : Doc} {c : Calculation} :
    ofDoc strategy doc = .ok c ↔ c.DescribedBy doc := by
  rw [ofDoc, bind_eq_ok]
  constructor
  · rintro ⟨name, hname, h⟩
    obtain ⟨hmap, hname⟩ := Doc.entry_eq_ok.mp hname
    split at h
    · cases h
    next htruthy =>
    obtain ⟨word, hword, h⟩ := bind_eq_ok.mp h
    obtain ⟨-, rfl⟩ := Doc.entry_eq_ok.mp hword
    split at h
    · cases h
    next operation hoperation =>
    obtain ⟨operands, hoperands, h⟩ := bind_eq_ok.mp h
    obtain ⟨-, rfl⟩ := Doc.entry_eq_ok.mp hoperands
    obtain ⟨items, hitems, h⟩ := bind_eq_ok.mp h
    obtain ⟨found, hfound, h⟩ := bind_eq_ok.mp h
    obtain rfl := Except.ok.inj h
    exact ⟨hmap, hname, by simpa using htruthy, hoperation, items, hitems,
      (mapM_eq_ok.mp hfound).imp fun _ _ ↦ Operand.ofDoc_eq_ok.mp⟩
  · intro h
    obtain ⟨items, hitems, hoperands⟩ := h.operands
    have hentry {key : String} : doc.entry key = .ok (doc.valueOf key) :=
      Doc.entry_eq_ok.mpr ⟨h.isMap, rfl⟩
    have hread : items.mapM (Operand.ofDoc c.name) = .ok c.operands :=
      mapM_eq_ok.mpr (hoperands.imp fun _ _ ↦ Operand.ofDoc_eq_ok.mpr)
    refine ⟨c.name, Doc.entry_eq_ok.mpr ⟨h.isMap, h.name⟩, ?_⟩
    simp only [h.name_isTruthy, hentry, ok_bind, h.operation, hitems, hread]
    rfl

/-- A document is read as the strategy that it describes. -/
theorem Strategy.ofDoc_eq_ok {doc : Doc} {s : Strategy} :
    ofDoc doc = .ok s ↔ s.DescribedBy doc := by
  rw [ofDoc, bind_eq_ok]
  constructor
  · rintro ⟨name, hname, h⟩
    obtain ⟨hmap, hname⟩ := Doc.entry_eq_ok.mp hname
    split at h
    · cases h
    next htruthy =>
    split at h
    · cases h
    next hscore =>
    split at h
    · next items hitems =>
      obtain ⟨found, hfound, h⟩ := bind_eq_ok.mp h
      obtain rfl := Except.ok.inj h
      exact ⟨hmap, hname, by simpa using htruthy, rfl, by simpa using hscore, items, hitems,
        (mapM_eq_ok.mp hfound).imp fun _ _ ↦ Calculation.ofDoc_eq_ok.mp⟩
    · cases h
  · intro h
    obtain ⟨items, hitems, hcalculations⟩ := h.calculations
    have hread : items.mapM (Calculation.ofDoc s.name) = .ok s.calculations :=
      mapM_eq_ok.mpr (hcalculations.imp fun _ _ ↦ Calculation.ofDoc_eq_ok.mpr)
    refine ⟨s.name, Doc.entry_eq_ok.mpr ⟨h.isMap, h.name⟩, ?_⟩
    simp only [h.name_isTruthy, h.score, h.score_isTruthy, hitems, hread, ok_bind]
    rfl

/-! ## Writing -/

/-- The words of operations are in capitals. -/
theorem Operation.parse?_word (op : Operation) : parse? op.word = some op := by
  have hcapitals : Text.capitals op.word = op.word := by
    cases op with
    | query => decide
    | scalar op => cases op <;> decide
    | series op => cases op <;> decide
    | sma => decide
  rw [parse?, hcapitals, ofWord?_word]

/-- Items that documents describe are described by their own documents. -/
theorem forall₂_describes {ι : Type} {describes : Doc → ι → Prop} {toDoc : ι → Doc}
    (h : ∀ {doc x}, describes doc x → describes (toDoc x) x) {docs : List Doc} {l : List ι}
    (hl : List.Forall₂ describes docs l) : List.Forall₂ describes (l.map toDoc) l := by
  induction hl with
  | nil => exact .nil
  | cons hx _ ih => exact .cons (h hx) ih

theorem Operand.DescribedBy.toDoc {o : Operand} {doc : Doc} (h : o.DescribedBy doc) :
    o.DescribedBy o.toDoc where
  isMap := rfl
  role := by rw [Operand.toDoc, Doc.valueOf_record]; rfl
  role_isTruthy := h.role_isTruthy
  kind := by rw [Operand.toDoc, Doc.valueOf_record]; rfl
  value := by
    rw [Operand.toDoc, Doc.valueOf_record]
    cases o.value <;> rfl

/-- A calculation that some document describes is described by the document written of it. -/
theorem Calculation.DescribedBy.toDoc {c : Calculation} {doc : Doc} (h : c.DescribedBy doc) :
    c.DescribedBy c.toDoc where
  isMap := rfl
  name := by rw [Calculation.toDoc, Doc.valueOf_record]; rfl
  name_isTruthy := h.name_isTruthy
  operation := by
    rw [Calculation.toDoc, Doc.valueOf_record]
    exact c.operation.parse?_word
  operands := by
    obtain ⟨items, -, hoperands⟩ := h.operands
    refine ⟨c.operands.map (·.toDoc), ?_, forall₂_describes (·.toDoc) hoperands⟩
    rw [Calculation.toDoc, Doc.valueOf_record]
    rfl

namespace Strategy

/-- A strategy that some document describes is described by the document written of it. -/
theorem DescribedBy.toDoc {s : Strategy} {doc : Doc} (h : s.DescribedBy doc) :
    s.DescribedBy s.toDoc where
  isMap := rfl
  name := by rw [Strategy.toDoc, Doc.valueOf_record]; rfl
  name_isTruthy := h.name_isTruthy
  score := by
    have hscore : s.toDoc.field? "score" = some (Doc.record [("calc", s.score)]) := by
      rw [Strategy.toDoc, Doc.field?_record]
      rfl
    rw [scoreName, hscore, Option.bind_some, Doc.field?_record]
    rfl
  score_isTruthy := h.score_isTruthy
  calculations := by
    obtain ⟨items, -, hcalculations⟩ := h.calculations
    refine ⟨s.calculations.map (·.toDoc), ?_, forall₂_describes (·.toDoc) hcalculations⟩
    rw [Strategy.toDoc, Doc.field?_record]
    rfl

/-- A strategy that was read is read back from its own document as it is: the document is written
again as it was, a value that is absent in the strategy is absent there too, and the graph, or the
reason why there is none, is the same. -/
theorem ofDoc_toDoc {doc : Doc} {s : Strategy} (h : ofDoc doc = .ok s) :
    s.DescribedBy doc ∧ ofDoc s.toDoc = .ok s ∧ (ofDoc s.toDoc).map Strategy.toDoc = .ok s.toDoc ∧
      (∀ c ∈ s.calculations, ∀ o ∈ c.operands, o.toDoc.field? "value" = o.value.map Doc.text) ∧
      ∀ strict, (ofDoc s.toDoc >>= fun copy ↦ copy.build strict) = s.build strict := by
  have hdoc : s.DescribedBy doc := ofDoc_eq_ok.mp h
  have hcopy : ofDoc s.toDoc = .ok s := ofDoc_eq_ok.mpr hdoc.toDoc
  refine ⟨hdoc, hcopy, ?_, fun c _ o _ ↦ ?_, fun strict ↦ ?_⟩
  · rw [hcopy]
    rfl
  · rw [Operand.toDoc, Doc.field?_record]
    cases o.value <;> rfl
  · rw [hcopy, ok_bind]

end Strategy

/-! ## A document with much left open -/

/-- An average of prices, with numbers where texts are usual, words in all sorts of letters, null
and missing values, and keys that no strategy has. -/
def looseDocument : Doc := Doc.record [
  ("calcs", .list [
    Doc.record [("name", .text "mean"), ("operation", .text "ſma"), ("operands", .list [
      Doc.record [("value", .int 3), ("type", .text "Integer"), ("name", .text "window_size")],
      Doc.record [("name", .text "time_series"), ("type", .text "Reference"),
        ("value", .text "price")],
      Doc.record [("name", .list [.int 1]), ("type", .text "Text"), ("value", .list [.null])]])],
    Doc.record [("name", .text "price"), ("operation", .text "Query"), ("operands", .list [
      Doc.record [("name", .text "field"), ("type", .text "Reference"), ("value", .null)]])],
    Doc.record [("name", .text "volume"), ("operation", .text "query"), ("operands", .null)]]),
  ("score", Doc.record [("calc", .text "mean"), ("weight", .int 2)]),
  ("name", .int 7)]

/-- The strategy that the document describes. -/
def looseStrategy : Strategy where
  name := .int 7
  score := .text "mean"
  calculations := [
    ⟨.text "mean", .sma, [⟨.text "window_size", .integer, some "3"⟩,
      ⟨.text "time_series", .reference, some "price"⟩, ⟨.list [.int 1], .text, some "[None]"⟩]⟩,
    ⟨.text "price", .query, [⟨.text "field", .reference, none⟩]⟩,
    ⟨.text "volume", .query, []⟩]

theorem looseDocument_ofDoc : Strategy.ofDoc looseDocument = .ok looseStrategy := by rfl

theorem looseStrategy_copy : Strategy.ofDoc looseDocument = .ok looseStrategy ∧
    looseStrategy.DescribedBy looseDocument ∧
    Strategy.ofDoc looseStrategy.toDoc = .ok looseStrategy ∧
    (Strategy.ofDoc looseStrategy.toDoc).map Strategy.toDoc = .ok looseStrategy.toDoc ∧
    ∀ strict, (Strategy.ofDoc looseStrategy.toDoc >>= fun copy ↦ copy.build strict) =
      looseStrategy.build strict := by
  obtain ⟨hdoc, hcopy, hagain, -, hbuild⟩ := Strategy.ofDoc_toDoc looseDocument_ofDoc
  exact ⟨looseDocument_ofDoc, hdoc, hcopy, hagain, hbuild⟩

end ScorePortfolio

import ScorePortfolio.Proofs.Evaluation.Failure

/-!
# Passes over unchecked graphs

A graph that nobody has checked may read any position: a later one, its own, one that does not
exist, and all of them also counted from the end.  A pass knows how many nodes have run, and a
position is read only where it leads to one of those, so what is read is always the output of an
earlier node.  Otherwise the pass ends there, with an error that names the node read, unless that is
something that has no name.
-/

namespace ScorePortfolio

variable {α : Type}

/-! ## Positions -/

/-- The position leads to the index; a negative one is counted from the end. -/
def LeadsTo (length : ℕ) (q : ℤ) (j : ℕ) : Prop := j < length ∧ (q = j ∨ q = (j : ℤ) - length)

theorem position?_eq_some {length : ℕ} {q : ℤ} {j : ℕ} :
    position? length q = some j ↔ LeadsTo length q j := by
  rw [position?, LeadsTo]
  split
  · rw [Option.some_inj]
    omega
  split
  · rw [Option.some_inj]
    omega
  · exact iff_of_false (Option.some_ne_none j).symm (by omega)

/-- A position leads nowhere exactly if it is out of range on either side. -/
theorem position?_eq_none {length : ℕ} {q : ℤ} :
    position? length q = none ↔ q < -(length : ℤ) ∨ (length : ℤ) ≤ q := by
  rw [position?]
  split
  · exact iff_of_false (Option.some_ne_none _) (by omega)
  split
  · exact iff_of_false (Option.some_ne_none _) (by omega)
  · exact iff_of_true rfl (by omega)

theorem exists_leadsTo {length : ℕ} {q : ℤ} (hlow : -(length : ℤ) ≤ q) (hhigh : q < length) :
    ∃ j, LeadsTo length q j := by
  refine (Option.ne_none_iff_exists'.mp fun hnone ↦ ?_).imp fun _ ↦ position?_eq_some.mp
  exact (position?_eq_none.mp hnone).elim hlow.not_gt hhigh.not_ge

namespace Node

/-- The operation of the node is one of its kind. -/
def IsTyped : Node → Prop
  | scalar _ op _ _ => ∃ arithmetic, op = .scalar arithmetic
  | series _ op _ _ => ∃ arithmetic, op = .series arithmetic
  | query .. | sma .. | foreign => True

/-! ## Operands -/

/-- The position leads to a node strictly before an index, which has the output. -/
def ReadsBefore (length : ℕ) (outputs : List (Series α)) (i : ℕ) (q : ℤ) (x : Series α) : Prop :=
  ∃ j < i, LeadsTo length q j ∧ outputs[j]? = some x

/-- The error of reading a node that has not run, which tells its name if it has one. -/
def notComputed (node : Node) : EvaluationError := node.name?.elim .foreignOperand .notComputed

/-- Reading the position fails when only the nodes before an index have run. -/
inductive Misreads (nodes : List Node) (i : ℕ) (q : ℤ) : EvaluationError → Prop where
  | outside : q < -(nodes.length : ℤ) ∨ (nodes.length : ℤ) ≤ q → Misreads nodes i q .noSuchPosition
  | notBefore {j node} : LeadsTo nodes.length q j → i ≤ j → nodes[j]? = some node →
      Misreads nodes i q node.notComputed

variable {nodes : List Node} {outputs all : List (Series α)} {i : ℕ} {q : ℤ} {x : Series α}
  {e : EvaluationError}

theorem operand_eq_ok_iff :
    operand nodes outputs q = .ok x ↔ ReadsBefore nodes.length outputs outputs.length q x := by
  simp only [operand_eq_ok, Option.bind_eq_some_iff, position?_eq_some]
  constructor
  · rintro ⟨j, hj, hx⟩
    exact ⟨j, (List.getElem?_eq_some_iff.mp hx).1, hj, hx⟩
  · rintro ⟨j, -, hj, hx⟩
    exact ⟨j, hj, hx⟩

/-- Reading a node that is not before the reader fails as not computed. -/
theorem operand_of_notBefore {j : ℕ} {node : Node} (hj : LeadsTo nodes.length q j)
    (hlate : outputs.length ≤ j) (hnode : nodes[j]? = some node) :
    operand nodes outputs q = .error node.notComputed := by
  rw [operand, position?_eq_some.mpr hj]
  simp only [List.getElem?_eq_none hlate, hnode, Option.bind_some, notComputed]
  cases node.name? <;> rfl

/-- An operand fails only where the position does not exist, or leads to a node that has not run. -/
theorem operand_eq_error :
    operand nodes outputs q = .error e ↔ Misreads nodes outputs.length q e := by
  constructor
  · intro h
    cases hposition : position? nodes.length q with
    | none =>
      rw [operand, hposition] at h
      obtain rfl := Except.error.inj h
      exact .outside (position?_eq_none.mp hposition)
    | some j =>
      have hj := position?_eq_some.mp hposition
      rcases Nat.lt_or_ge j outputs.length with hrun | hlate
      · have hok := operand_eq_ok_iff.mpr ⟨j, hrun, hj, List.getElem?_eq_getElem hrun⟩
        cases hok.symm.trans h
      · have hnode : nodes[j]? = some (nodes.get ⟨j, hj.1⟩) := List.getElem?_eq_getElem hj.1
        obtain rfl := Except.error.inj ((operand_of_notBefore hj hlate hnode).symm.trans h)
        exact .notBefore hj hlate hnode
  · rintro (hout | ⟨hj, hlate, hnode⟩)
    · rw [operand, position?_eq_none.mpr hout]
    · exact operand_of_notBefore hj hlate hnode

/-- What is read before an index depends only on the outputs before it. -/
theorem readsBefore_congr (h : ∀ j < i, outputs[j]? = all[j]?) :
    ReadsBefore nodes.length outputs i q x ↔ ReadsBefore nodes.length all i q x :=
  exists_congr fun j ↦ and_congr_right fun hj ↦ by rw [h j hj]

/-! ## Nodes -/

section Nodes

variable [Quantity α]

/-- The node has the output, where an operand is a series that is read at its position. -/
inductive Computes (client : Client α) (asset : Asset) (t : Option Instant)
    (reads : ℤ → Series α → Prop) : Node → Series α → Prop where
  | query {name field x} : client.query asset t field = .ok x →
      Computes client asset t reads (.query name field) x
  | scalar {name op q k a x} : reads q a → a.withScalar op (Quantity.ofFloat k) = .ok x →
      Computes client asset t reads (.scalar name (.scalar op) q k) x
  | series {name op q r a b x} : reads q a → reads r b → a.withSeries op b = .ok x →
      Computes client asset t reads (.series name (.series op) q r) x
  | sma {name q w a x} : reads q a → a.sma w = .ok x →
      Computes client asset t reads (.sma name q w) x

/-- The node fails with the error, when the nodes before it have the outputs.  A left operand is
read before a right one, and both before anything is computed. -/
inductive Breaks (client : Client α) (asset : Asset) (t : Option Instant) (nodes : List Node)
    (outputs : List (Series α)) : Node → EvaluationError → Prop where
  | unknownAsset {name field symbol} :
      client.query asset t field = .error (.assetNotFound symbol) →
      Breaks client asset t nodes outputs (.query name field) (.assetNotFound symbol)
  | request {name field cause} : client.query asset t field = .error cause →
      (∀ symbol, cause ≠ .assetNotFound symbol) →
      Breaks client asset t nodes outputs (.query name field) (.request ⟨asset, t, field⟩ cause)
  | scalarOperand {name op q k e} : Misreads nodes outputs.length q e →
      Breaks client asset t nodes outputs (.scalar name (.scalar op) q k) e
  | scalar {name op q k a cause} : ReadsBefore nodes.length outputs outputs.length q a →
      a.withScalar op (Quantity.ofFloat k) = .error cause →
      Breaks client asset t nodes outputs (.scalar name (.scalar op) q k) (.series cause)
  | leftOperand {name op q r e} : Misreads nodes outputs.length q e →
      Breaks client asset t nodes outputs (.series name (.series op) q r) e
  | rightOperand {name op q r a e} : ReadsBefore nodes.length outputs outputs.length q a →
      Misreads nodes outputs.length r e →
      Breaks client asset t nodes outputs (.series name (.series op) q r) e
  | series {name op q r a b cause} : ReadsBefore nodes.length outputs outputs.length q a →
      ReadsBefore nodes.length outputs outputs.length r b → a.withSeries op b = .error cause →
      Breaks client asset t nodes outputs (.series name (.series op) q r) (.series cause)
  | smaOperand {name q w e} : Misreads nodes outputs.length q e →
      Breaks client asset t nodes outputs (.sma name q w) e
  | sma {name q w a cause} : ReadsBefore nodes.length outputs outputs.length q a →
      a.sma w = .error cause → Breaks client asset t nodes outputs (.sma name q w) (.series cause)
  | foreign : Breaks client asset t nodes outputs .foreign .foreignNode

variable {client : Client α} {asset : Asset} {t : Option Instant} {node : Node}

/-- What a node computes depends on what it reads alone. -/
theorem Computes.imp {reads reads' : ℤ → Series α → Prop}
    (h : Computes client asset t reads node x) (hreads : ∀ q a, reads q a → reads' q a) :
    Computes client asset t reads' node x := by
  cases h with
  | query hx => exact .query hx
  | scalar ha hx => exact .scalar (hreads _ _ ha) hx
  | series ha hb hx => exact .series (hreads _ _ ha) (hreads _ _ hb) hx
  | sma ha hx => exact .sma (hreads _ _ ha) hx

/-- Whatever a node that has an output reads is there. -/
theorem Computes.exists_of_mem_reads {reads : ℤ → Series α → Prop}
    (h : Computes client asset t reads node x) (hq : q ∈ node.reads) : ∃ a, reads q a := by
  cases h with
  | query => cases hq
  | scalar ha | sma ha =>
    obtain rfl := List.mem_singleton.mp hq
    exact ⟨_, ha⟩
  | series ha hb =>
    rcases List.mem_pair.mp hq with rfl | rfl
    · exact ⟨_, ha⟩
    · exact ⟨_, hb⟩

/-- A node yields what it computes from the outputs before it. -/
theorem yields_iff_computes : Yields client asset t nodes outputs node x ↔
    Computes client asset t (ReadsBefore nodes.length outputs outputs.length) node x := by
  constructor
  · rintro (hx | ⟨ha, hx⟩ | ⟨ha, hb, hx⟩ | ⟨ha, hx⟩)
    · exact .query hx
    · exact .scalar (operand_eq_ok_iff.mp ha) hx
    · exact .series (operand_eq_ok_iff.mp ha) (operand_eq_ok_iff.mp hb) hx
    · exact .sma (operand_eq_ok_iff.mp ha) hx
  · rintro (hx | ⟨ha, hx⟩ | ⟨ha, hb, hx⟩ | ⟨ha, hx⟩)
    · exact .query hx
    · exact .scalar (operand_eq_ok_iff.mpr ha) hx
    · exact .series (operand_eq_ok_iff.mpr ha) (operand_eq_ok_iff.mpr hb) hx
    · exact .sma (operand_eq_ok_iff.mpr ha) hx

/-- A node whose operation is of its kind fails in these ways, and in no other. -/
theorem run_eq_error_iff (h : node.IsTyped) :
    (node.run client asset t nodes outputs).result = .error e ↔
      Breaks client asset t nodes outputs node e := by
  cases node with
  | query name field =>
    have hrun : ((query name field).run client asset t nodes outputs).result =
        Request.send ⟨asset, t, field⟩ client := by
      rw [run]
      cases Request.send ⟨asset, t, field⟩ client <;> rfl
    rw [hrun, Request.send_eq_error]
    constructor
    · rintro (⟨symbol, hx, rfl⟩ | ⟨cause, hx, hne, rfl⟩)
      · exact .unknownAsset hx
      · exact .request hx hne
    · rintro (hx | ⟨hx, hne⟩)
      · exact .inl ⟨_, hx, rfl⟩
      · exact .inr ⟨_, hx, hne, rfl⟩
  | scalar name op q k =>
    obtain ⟨op, rfl⟩ := h
    simp only [run, bind_eq_error, mapError_eq_error, operand_eq_error, operand_eq_ok_iff]
    constructor
    · rintro (he | ⟨a, ha, cause, hcause, rfl⟩)
      · exact .scalarOperand he
      · exact .scalar ha hcause
    · rintro (_ | _ | he | ⟨ha, hcause⟩)
      · exact .inl he
      · exact .inr ⟨_, ha, _, hcause, rfl⟩
  | series name op q r =>
    obtain ⟨op, rfl⟩ := h
    simp only [run, bind_eq_error, mapError_eq_error, operand_eq_error, operand_eq_ok_iff]
    constructor
    · rintro (he | ⟨a, ha, he | ⟨b, hb, cause, hcause, rfl⟩⟩)
      · exact .leftOperand he
      · exact .rightOperand ha he
      · exact .series ha hb hcause
    · rintro (_ | _ | _ | _ | he | ⟨ha, he⟩ | ⟨ha, hb, hcause⟩)
      · exact .inl he
      · exact .inr ⟨_, ha, .inl he⟩
      · exact .inr ⟨_, ha, .inr ⟨_, hb, _, hcause, rfl⟩⟩
  | sma name q w =>
    simp only [run, bind_eq_error, mapError_eq_error, operand_eq_error, operand_eq_ok_iff]
    constructor
    · rintro (he | ⟨a, ha, cause, hcause, rfl⟩)
      · exact .smaOperand he
      · exact .sma ha hcause
    · rintro (_ | _ | _ | _ | _ | _ | _ | he | ⟨ha, hcause⟩)
      · exact .inl he
      · exact .inr ⟨_, ha, _, hcause, rfl⟩
  | foreign =>
    constructor
    · intro h
      obtain rfl := Except.error.inj h
      exact .foreign
    · rintro ⟨⟩
      rfl

end Nodes

/-! ## Runs -/

section Runs

variable [Quantity α] {client : Client α} {asset : Asset} {t : Option Instant}

/-- The outputs are those of the first nodes, each computed from the outputs of nodes strictly
before it. -/
structure Fills (client : Client α) (asset : Asset) (t : Option Instant) (nodes : List Node)
    (outputs : List (Series α)) : Prop where
  length_le : outputs.length ≤ nodes.length
  computes : ∀ i node x, nodes[i]? = some node → outputs[i]? = some x →
    Computes client asset t (ReadsBefore nodes.length outputs i) node x

theorem fills_nil : Fills client asset t nodes [] := ⟨Nat.zero_le _, nofun⟩

theorem Fills.of_prefix (h : Fills client asset t nodes all) (hpre : outputs <+: all) :
    Fills client asset t nodes outputs := by
  obtain ⟨more, rfl⟩ := hpre
  refine ⟨(Nat.le_add_right _ _).trans (List.length_append ▸ h.length_le),
    fun i node x hnode hx ↦ ?_⟩
  have hi : i < outputs.length := (List.getElem?_eq_some_iff.mp hx).1
  refine (h.computes i node x hnode ((List.getElem?_append_left hi).trans hx)).imp fun q a ↦
    (readsBefore_congr fun j hj ↦ List.getElem?_append_left (hj.trans hi)).mp

/-- One more output belongs there exactly if the next node has it after those before. -/
theorem fills_concat : Fills client asset t nodes (outputs ++ [x]) ↔
    Fills client asset t nodes outputs ∧
      ∃ node, nodes[outputs.length]? = some node ∧ Yields client asset t nodes outputs node x := by
  have hbefore {q a} : ReadsBefore nodes.length outputs outputs.length q a ↔
      ReadsBefore nodes.length (outputs ++ [x]) outputs.length q a :=
    readsBefore_congr fun j hj ↦ (List.getElem?_append_left hj).symm
  constructor
  · intro h
    have hlt : outputs.length < nodes.length := by simpa using h.length_le
    have hnode := List.getElem?_eq_getElem hlt
    have hcomputes := h.computes _ _ x hnode (by simp)
    exact ⟨h.of_prefix (List.prefix_append _ _), _, hnode,
      yields_iff_computes.mpr (hcomputes.imp fun _ _ ↦ hbefore.mpr)⟩
  · rintro ⟨h, node, hnode, hx⟩
    have hlt : outputs.length < nodes.length := (List.getElem?_eq_some_iff.mp hnode).1
    refine ⟨by simpa using hlt, fun i node' y hnode' hy ↦ ?_⟩
    rcases Nat.lt_or_ge i outputs.length with hi | hi
    · rw [List.getElem?_append_left hi] at hy
      exact (h.computes i node' y hnode' hy).imp fun q a ↦
        (readsBefore_congr fun j hj ↦ (List.getElem?_append_left (hj.trans hi)).symm).mp
    · obtain rfl : i = outputs.length := by
        have hlast := (List.getElem?_eq_some_iff.mp hy).1
        rw [List.length_append, List.length_singleton] at hlast
        omega
      obtain rfl : x = y := by simpa using hy
      obtain rfl := Option.some.inj (hnode.symm.trans hnode')
      exact (yields_iff_computes.mp hx).imp fun _ _ ↦ hbefore.mp

/-- A run of the next nodes adds the outputs that belong there. -/
theorem runAll_eq_ok {rest : List Node} (hnodes : rest <+: nodes.drop outputs.length)
    (h : Fills client asset t nodes outputs) :
    (runAll client asset t nodes outputs rest).result = .ok all ↔
      outputs <+: all ∧ all.length = outputs.length + rest.length ∧
        Fills client asset t nodes all := by
  induction rest generalizing outputs with
  | nil =>
    constructor
    · intro hall
      obtain rfl := Except.ok.inj hall
      exact ⟨List.prefix_rfl, rfl, h⟩
    · rintro ⟨hpre, hlen, -⟩
      exact congrArg Except.ok (hpre.eq_of_length hlen.symm)
  | cons node rest ih =>
    obtain ⟨after, hafter⟩ := hnodes
    have hnode : nodes[outputs.length]? = some node := by
      rw [← Nat.add_zero outputs.length, ← List.getElem?_drop, ← hafter]
      rfl
    have hrest (x : Series α) : rest <+: nodes.drop (outputs ++ [x]).length := by
      rw [List.length_append, List.length_singleton, ← List.drop_drop, ← hafter]
      exact List.prefix_append _ _
    rw [runAll_cons_eq_ok]
    constructor
    · rintro ⟨x, hx, hall⟩
      have hnext := fills_concat.mpr ⟨h, node, hnode, hx⟩
      obtain ⟨hpre, hlen, hfills⟩ := (ih (hrest x) hnext).mp hall
      refine ⟨(List.prefix_append _ _).trans hpre, ?_, hfills⟩
      rw [hlen, List.length_append, List.length_singleton, List.length_cons]
      omega
    · rintro ⟨⟨more, rfl⟩, hlen, hfills⟩
      rw [List.length_append, List.length_cons, Nat.add_left_cancel_iff] at hlen
      obtain ⟨x, more, rfl⟩ := List.exists_cons_of_length_eq_add_one hlen
      have hpre : outputs ++ [x] <+: outputs ++ x :: more :=
        ⟨more, by rw [List.append_assoc, List.singleton_append]⟩
      obtain ⟨-, node', hnode', hx⟩ := fills_concat.mp (hfills.of_prefix hpre)
      obtain rfl := Option.some.inj (hnode.symm.trans hnode')
      refine ⟨x, hx, (ih (hrest x) (hfills.of_prefix hpre)).mpr ⟨hpre, ?_, hfills⟩⟩
      simp only [List.length_append, List.length_cons, List.length_nil] at hlen ⊢
      omega

/-- A run of first nodes has the outputs that belong there, one for each of them. -/
theorem runAll_nil_eq_ok {before : List Node} (h : before <+: nodes) :
    (runAll client asset t nodes [] before).result = .ok all ↔
      all.length = before.length ∧ Fills client asset t nodes all := by
  rw [runAll_eq_ok (by exact h) fills_nil, List.length_nil, Nat.zero_add]
  exact and_iff_right List.nil_prefix

/-- A whole run fails exactly as the first node to fail does, after those before it have the outputs
that belong there. -/
theorem runAll_nodes_eq_error (h : ∀ node ∈ nodes, node.IsTyped) :
    (runAll client asset t nodes [] nodes).result = .error e ↔
      ∃ found node, Fills client asset t nodes found ∧ nodes[found.length]? = some node ∧
        Breaks client asset t nodes found node e := by
  rw [runAll_eq_error]
  constructor
  · rintro ⟨before, node, after, found, rfl, hfound, herror⟩
    obtain ⟨hlen, hfills⟩ := (runAll_nil_eq_ok (List.prefix_append _ _)).mp hfound
    exact ⟨found, node, hfills, by simp [hlen], (run_eq_error_iff (h node (by simp))).mp herror⟩
  · rintro ⟨found, node, hfills, hnode, hbreaks⟩
    have hsplit : nodes = nodes.take found.length ++ node :: nodes.drop (found.length + 1) := by
      obtain ⟨hlt, rfl⟩ := List.getElem?_eq_some_iff.mp hnode
      rw [List.cons_getElem_drop_succ, List.take_append_drop]
    have hlen : found.length = (nodes.take found.length).length := by
      rw [List.length_take, Nat.min_eq_left hfills.length_le]
    exact ⟨_, node, _, found, hsplit,
      (runAll_nil_eq_ok (List.take_prefix _ _)).mpr ⟨hlen, hfills⟩,
      (run_eq_error_iff (h node (List.mem_of_getElem? hnode))).mpr hbreaks⟩

end Runs

end Node

/-! ## Passes -/

namespace Graph

variable {g : Graph} {r : AssetScore α} {asset : Asset} {t : Option Instant}
  {all : List (Series α)}

/-- The score is the output that its position leads to. -/
theorem collect_eq_ok : g.collect asset t all = .ok r ↔
    (∃ j, LeadsTo g.length g.scorePosition j ∧ all[j]? = some r.score) ∧
      r = ⟨asset, t, r.score, Entries.ofList Scalar.same (g.executionOrder.zip all)⟩ := by
  rw [collect]
  cases hscore : (position? g.length g.scorePosition).bind (all[·]?) with
  | none =>
    refine iff_of_false throw_ne_ok ?_
    rintro ⟨⟨j, hj, hx⟩, -⟩
    cases hscore.symm.trans (Option.bind_eq_some_iff.mpr ⟨j, position?_eq_some.mpr hj, hx⟩)
  | some x =>
    obtain ⟨j, hj, hx⟩ := Option.bind_eq_some_iff.mp hscore
    constructor
    · intro h
      obtain rfl := Except.ok.inj h
      exact ⟨⟨j, position?_eq_some.mp hj, hx⟩, rfl⟩
    · rintro ⟨⟨j', hj', hx'⟩, hr⟩
      obtain rfl := Option.some.inj (hj.symm.trans (position?_eq_some.mpr hj'))
      obtain rfl := Option.some.inj (hx.symm.trans hx')
      exact congrArg Except.ok hr.symm

/-- With the position of the score in range and every output there, collecting does not fail. -/
theorem collect_ne_error {e : EvaluationError} (hlow : -(g.length : ℤ) ≤ g.scorePosition)
    (hhigh : g.scorePosition < g.length) (hlen : all.length = g.length) :
    g.collect asset t all ≠ .error e := by
  obtain ⟨j, hj⟩ := exists_leadsTo hlow hhigh
  rw [collect, position?_eq_some.mpr hj, Option.bind_some,
    List.getElem?_eq_getElem (hlen.symm ▸ hj.1)]
  exact pure_ne_error

/-- A pass over any graph whose score has a position returns exactly if every node reads only
outputs of nodes strictly before it, and each output is computed from these.  Otherwise the first
node that fails ends it: at a position that does not exist, at one that leads to the node itself or
a later one, or because it is no step, unless it fails as its request or its operation does. -/
theorem evaluate_outcome [Quantity α] (htyped : ∀ node ∈ g.nodes, node.IsTyped)
    (hlow : -(g.length : ℤ) ≤ g.scorePosition) (hhigh : g.scorePosition < g.length)
    (client : Client α) (asset : Asset) (t : Option Instant) :
    (∀ r, (g.evaluate client asset t).result = .ok r ↔
      ∃ all, all.length = g.length ∧ Node.Fills client asset t g.nodes all ∧
        (∃ j, LeadsTo g.length g.scorePosition j ∧ all[j]? = some r.score) ∧
        r = ⟨asset, t, r.score, Entries.ofList Scalar.same (g.executionOrder.zip all)⟩) ∧
    (∀ r, (g.evaluate client asset t).result = .ok r →
      ∀ i node, g.nodes[i]? = some node → ∀ q ∈ node.reads, ∃ j < i, LeadsTo g.length q j) ∧
    ∀ e, (g.evaluate client asset t).result = .error e ↔
      ∃ found node, Node.Fills client asset t g.nodes found ∧
        g.nodes[found.length]? = some node ∧ Node.Breaks client asset t g.nodes found node e := by
  have hok (r : AssetScore α) : (g.evaluate client asset t).result = .ok r ↔
      ∃ all, all.length = g.length ∧ Node.Fills client asset t g.nodes all ∧
        (∃ j, LeadsTo g.length g.scorePosition j ∧ all[j]? = some r.score) ∧
        r = ⟨asset, t, r.score, Entries.ofList Scalar.same (g.executionOrder.zip all)⟩ := by
    have hpass : (g.evaluate client asset t).result = .ok r ↔ ∃ all,
        (Node.runAll client asset t g.nodes [] g.nodes).result = .ok all ∧
          g.collect asset t all = .ok r := bind_eq_ok
    simp only [hpass, Node.runAll_nil_eq_ok List.prefix_rfl, collect_eq_ok, and_assoc]
    rfl
  refine ⟨hok, fun r hr i node hnode q hq ↦ ?_, fun e ↦ ?_⟩
  · obtain ⟨all, hlen, hfills, -⟩ := (hok r).mp hr
    have hi : i < all.length := hlen ▸ (List.getElem?_eq_some_iff.mp hnode).1
    obtain ⟨a, j, hji, hj, -⟩ := (hfills.computes i node _ hnode
      (List.getElem?_eq_getElem hi)).exists_of_mem_reads hq
    exact ⟨j, hji, hj⟩
  · -- once every node has an output the score has one, so only a node can fail
    have hpass : (g.evaluate client asset t).result = .error e ↔
        (Node.runAll client asset t g.nodes [] g.nodes).result = .error e := by
      refine bind_eq_error.trans (or_iff_left ?_)
      rintro ⟨all, hall, herror⟩
      exact collect_ne_error hlow hhigh ((Node.runAll_nil_eq_ok List.prefix_rfl).mp hall).1 herror
    rw [hpass, Node.runAll_nodes_eq_error htyped]

/-- A price and the mean of what is at a position, the last of two nodes. -/
def meanOf (q : ℤ) : Graph where
  strategy := .scalar (.text "mean")
  nodes := [.query (.text "price") (some "close"), .sma (.text "mean") q 2]
  scorePosition := -1
  edges := []

/-- The price is the second node from the end; the mean itself is no operand of its own. -/
theorem meanOf_outcome : (∀ q, ∀ node ∈ (meanOf q).nodes, node.IsTyped) ∧
    (∀ q, -((meanOf q).length : ℤ) ≤ (meanOf q).scorePosition ∧
      (meanOf q).scorePosition < (meanOf q).length) ∧
    (∃ all, Node.Fills fourPrices ⟨"A"⟩ (some ⟨4⟩) (meanOf (-2)).nodes all ∧
      all[1]? = some ⟨[(⟨2⟩, 11), (⟨3⟩, 13), (⟨4⟩, 13)]⟩) ∧
    ((meanOf 1).evaluate fourPrices ⟨"A"⟩ (some ⟨4⟩)).result =
      .error (.notComputed (.text "mean")) := by
  have htyped (q : ℤ) : ∀ node ∈ (meanOf q).nodes, node.IsTyped := by simp [meanOf, Node.IsTyped]
  have hrange (q : ℤ) : -((meanOf q).length : ℤ) ≤ (meanOf q).scorePosition ∧
      (meanOf q).scorePosition < (meanOf q).length := by simp [meanOf, length]
  have hscore : ((meanOf (-2)).evaluate fourPrices ⟨"A"⟩ (some ⟨4⟩)).result.map (·.score) =
      .ok ⟨[(⟨2⟩, 11), (⟨3⟩, 13), (⟨4⟩, 13)]⟩ := by decide +kernel
  refine ⟨htyped, hrange, ?_, ?_⟩
  · obtain ⟨r, hr, hscore⟩ := map_eq_ok.mp hscore
    obtain ⟨all, -, hfills, ⟨j, hj, hx⟩, -⟩ := ((evaluate_outcome (htyped _) (hrange _).1
      (hrange _).2 fourPrices ⟨"A"⟩ (some ⟨4⟩)).1 r).mp hr
    have hlast : LeadsTo (meanOf (-2)).length (-1) 1 := ⟨by decide, .inr rfl⟩
    obtain rfl : j = 1 := Option.some.inj
      ((position?_eq_some.mpr hj).symm.trans (position?_eq_some.mpr hlast))
    exact ⟨all, hfills, hscore ▸ hx⟩
  · have hself : Node.Misreads (meanOf 1).nodes 1 1
        (Node.notComputed (.sma (.text "mean") 1 2)) :=
      .notBefore ⟨by decide, .inl rfl⟩ le_rfl rfl
    exact ((evaluate_outcome (htyped _) (hrange _).1 (hrange _).2 fourPrices ⟨"A"⟩
      (some ⟨4⟩)).2.2 _).mpr ⟨[_], _, Node.fills_concat.mpr
        ⟨Node.fills_nil, _, rfl, .query rfl⟩, rfl, .smaOperand hself⟩

/-- What is no step has no name, and so none is told when a node reads it too early. -/
theorem exists_nameless_operand : ¬ ∀ (g : Graph) (client : Client Rat) (asset : Asset)
    (t : Option Instant), (∀ node ∈ g.nodes, node.IsTyped) →
    -(g.length : ℤ) ≤ g.scorePosition → g.scorePosition < g.length →
    ∀ name op q k j, g.nodes[0]? = some (.scalar name (.scalar op) q k) → LeadsTo g.length q j →
      ∃ operand, (g.evaluate client asset t).result = .error (.notComputed operand) := by
  intro h
  obtain ⟨operand, hr⟩ := h
    ⟨.scalar (.text "sum"), [.scalar (.text "sum") (.scalar .add) 1 1.0, .foreign], 0, []⟩
    fourPrices ⟨"A"⟩ (some ⟨4⟩) (by simp [Node.IsTyped]) (by decide) (by decide) _ _ _ _ 1 rfl
    ⟨by decide, .inl rfl⟩
  cases hr

end Graph

end ScorePortfolio

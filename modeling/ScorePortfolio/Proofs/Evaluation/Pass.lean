import ScorePortfolio.Proofs.Traversal
import ScorePortfolio.Evaluation.Pass

/-!
# Passes, node by node

What it takes for a node to have an output, and for a pass to have one for each node.  A node reads
outputs only at the positions of nodes that have run before.
-/

namespace ScorePortfolio

theorem position?_natCast {length i : Nat} (h : i < length) : position? length i = some i := by
  rw [position?, if_pos ⟨Int.natCast_nonneg i, Int.ofNat_lt.mpr h⟩, Int.toNat_natCast]

namespace Request

variable {α : Type}

theorem send_eq_ok {r : Request} {c : Client α} {x : Series α} :
    r.send c = .ok x ↔ c.query r.asset r.asOf r.field = .ok x := by
  rw [send]
  split <;> simp_all

end Request

namespace Node

variable {α : Type}

/-- An operand is read where its position, counted from the end if negative, holds an output. -/
theorem operand_eq_ok {nodes : List Node} {outputs : List (Series α)} {q : Int} {x : Series α} :
    operand nodes outputs q = .ok x ↔ (position? nodes.length q).bind (outputs[·]?) = some x := by
  rw [operand]
  cases position? nodes.length q with
  | none => simp
  | some i =>
    simp only [Option.bind_some]
    cases outputs[i]? with
    | none => cases (nodes[i]?).bind name? <;> simp
    | some y => simp

section Operand

variable {nodes : List Node} {outputs all : List (Series α)} {q : Int} {x : Series α}

theorem operand_map (f : Series α → Series α) (h : operand nodes outputs q = .ok x) :
    operand nodes (outputs.map f) q = .ok (f x) := by
  obtain ⟨i, hi, hx⟩ := Option.bind_eq_some_iff.mp (operand_eq_ok.mp h)
  rw [operand_eq_ok, hi, Option.bind_some, List.getElem?_map, hx, Option.map_some]

theorem operand_mem (h : operand nodes outputs q = .ok x) : x ∈ outputs := by
  obtain ⟨i, -, hx⟩ := Option.bind_eq_some_iff.mp (operand_eq_ok.mp h)
  exact List.mem_of_getElem? hx

/-- What an operand reads is not changed by later outputs. -/
theorem operand_of_prefix (hpre : outputs <+: all) (h : operand nodes outputs q = .ok x) :
    operand nodes all q = .ok x := by
  obtain ⟨i, hi, hx⟩ := Option.bind_eq_some_iff.mp (operand_eq_ok.mp h)
  obtain ⟨more, rfl⟩ := hpre
  rw [operand_eq_ok, hi, Option.bind_some,
    List.getElem?_append_left (List.getElem?_eq_some_iff.mp hx).1, hx]

end Operand

variable [Quantity α]

/-- The node has the output, given those of the nodes before it. -/
inductive Yields (client : Client α) (asset : Asset) (t : Option Instant) (nodes : List Node)
    (outputs : List (Series α)) : Node → Series α → Prop where
  | query {name field x} : client.query asset t field = .ok x →
      Yields client asset t nodes outputs (.query name field) x
  | scalar {name op q k a x} : operand nodes outputs q = .ok a →
      a.withScalar op (Quantity.ofFloat k) = .ok x →
      Yields client asset t nodes outputs (.scalar name (.scalar op) q k) x
  | series {name op q r a b x} : operand nodes outputs q = .ok a →
      operand nodes outputs r = .ok b → a.withSeries op b = .ok x →
      Yields client asset t nodes outputs (.series name (.series op) q r) x
  | sma {name q w a x} : operand nodes outputs q = .ok a → a.sma w = .ok x →
      Yields client asset t nodes outputs (.sma name q w) x

section Run

variable {client : Client α} {asset : Asset} {t : Option Instant} {nodes : List Node}
  {outputs : List (Series α)}

/-- A node runs to a series exactly if it yields it. -/
theorem run_eq_ok {node : Node} {x : Series α} :
    (node.run client asset t nodes outputs).result = .ok x ↔
      Yields client asset t nodes outputs node x := by
  constructor
  · intro h
    cases node with
    | query name field =>
      rw [run] at h
      split at h
      · next s hs =>
        obtain rfl := Except.ok.inj h
        exact .query (Request.send_eq_ok.mp hs)
      · cases h
    | scalar name op q k =>
      cases op with
      | scalar op =>
        obtain ⟨a, ha, h⟩ := bind_eq_ok.mp h
        exact .scalar ha (mapError_eq_ok.mp h)
      | _ => cases h
    | series name op q r =>
      cases op with
      | series op =>
        obtain ⟨a, ha, h⟩ := bind_eq_ok.mp h
        obtain ⟨b, hb, h⟩ := bind_eq_ok.mp h
        exact .series ha hb (mapError_eq_ok.mp h)
      | _ => cases h
    | sma name q w =>
      obtain ⟨a, ha, h⟩ := bind_eq_ok.mp h
      exact .sma ha (mapError_eq_ok.mp h)
    | foreign => cases h
  · rintro (hq | ⟨ha, hx⟩ | ⟨ha, hb, hx⟩ | ⟨ha, hx⟩)
    · have hsend := Request.send_eq_ok (r := ⟨asset, t, _⟩).mpr hq
      simp only [run, hsend]
    · exact bind_eq_ok.mpr ⟨_, ha, mapError_eq_ok.mpr hx⟩
    · exact bind_eq_ok.mpr ⟨_, ha, bind_eq_ok.mpr ⟨_, hb, mapError_eq_ok.mpr hx⟩⟩
    · exact bind_eq_ok.mpr ⟨_, ha, mapError_eq_ok.mpr hx⟩

theorem runAll_cons_eq_ok {node : Node} {rest : List Node} {all : List (Series α)} :
    (runAll client asset t nodes outputs (node :: rest)).result = .ok all ↔
      ∃ x, Yields client asset t nodes outputs node x ∧
        (runAll client asset t nodes (outputs ++ [x]) rest).result = .ok all := by
  rw [runAll]
  simp only [← run_eq_ok]
  cases (node.run client asset t nodes outputs).result <;> simp

theorem runAll_cons_of_ok {node : Node} {rest : List Node} {x : Series α}
    (h : (node.run client asset t nodes outputs).result = .ok x) :
    (runAll client asset t nodes outputs (node :: rest)).result =
        (runAll client asset t nodes (outputs ++ [x]) rest).result ∧
      (runAll client asset t nodes (outputs ++ [x]) rest).events ⊆
        (runAll client asset t nodes outputs (node :: rest)).events := by
  simp only [runAll, h, true_and]
  exact List.subset_append_right _ _

/-- The first node that fails ends the pass, and is reported. -/
theorem runAll_cons_of_error {node : Node} {rest : List Node} {e : EvaluationError}
    (h : (node.run client asset t nodes outputs).result = .error e) :
    (runAll client asset t nodes outputs (node :: rest)).result = .error e ∧
      ∀ name, node.name? = some name → .failed name asset t e ∈
        (runAll client asset t nodes outputs (node :: rest)).events := by
  simp only [runAll, h, true_and]
  intro name hname
  simp [hname]

/-- A run only adds to the outputs it starts from. -/
theorem prefix_of_runAll {rest : List Node} {all : List (Series α)}
    (h : (runAll client asset t nodes outputs rest).result = .ok all) : outputs <+: all := by
  induction rest generalizing outputs with
  | nil => exact Except.ok.inj h ▸ List.prefix_rfl
  | cons node rest ih =>
    obtain ⟨x, -, h⟩ := runAll_cons_eq_ok.mp h
    exact (List.prefix_append _ _).trans (ih h)

/-- A run adds one output for each node. -/
theorem length_of_runAll {rest : List Node} {all : List (Series α)}
    (h : (runAll client asset t nodes outputs rest).result = .ok all) :
    all.length = outputs.length + rest.length := by
  induction rest generalizing outputs with
  | nil =>
    obtain rfl := Except.ok.inj h
    rfl
  | cons node rest ih =>
    obtain ⟨x, -, h⟩ := runAll_cons_eq_ok.mp h
    rw [ih h, List.length_append, List.length_singleton, List.length_cons, Nat.add_right_comm]
    rfl

end Run

end Node

end ScorePortfolio

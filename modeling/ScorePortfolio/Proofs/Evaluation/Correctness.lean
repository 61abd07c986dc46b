import ScorePortfolio.Proofs.Evaluation.Meaning
import ScorePortfolio.Proofs.Evaluation.Outputs

/-!
# Passes compute meanings

A pass over the graph of a strategy has an output for each calculation if and only if each has a
meaning, and the outputs are the meanings.
-/

namespace ScorePortfolio

/-- What the outputs of a pass are to the strategy. -/
structure AssetScore.IsMeaning {α : Type} [Quantity α] (r : AssetScore α) (s : Strategy)
    (client : Client α) (asset : Asset) (t : Option Instant) : Prop where
  asset_eq : r.asset = asset
  asOf_eq : r.asOf = t
  /-- The outputs have the names of the calculations, each once. -/
  names_perm : (r.outputs.map fun entry ↦ Doc.scalar entry.1).Perm (s.calculations.map (·.name))
  names_nodup : (r.outputs.map fun entry ↦ entry.1.key).Nodup
  /-- The output of each calculation is its meaning. -/
  outputs : ∀ c ∈ s.calculations, ∀ n, c.name = .scalar n → ∀ x,
    Entries.find? Scalar.same n r.outputs = some x ↔ s.Means client asset t c x
  /-- The score is the meaning of the calculation that it names. -/
  score : ∃ c ∈ s.calculations, c.name.same s.score = true ∧ s.Means client asset t c r.score

namespace Strategy

variable {α : Type} [Quantity α] {s : Strategy} {strict : Bool} {p : Plan} {g : Graph}
  {client : Client α} {asset : Asset} {t : Option Instant}

/-- At the positions of the names that a name depends on are the meanings of those names. -/
def ReadsMeanings (s : Strategy) (client : Client α) (asset : Asset) (t : Option Instant)
    (nodes : List Node) (order : List Scalar) (outputs : List (Series α)) (n : Scalar) : Prop :=
  ∀ v, s.Depends (.text v) n → ∀ a, Node.operand nodes outputs (order.idxOf (.text v)) = .ok a ↔
    s.NameMeans client asset t (.text v) a

/-- The outputs before a node are meanings, and a node depends on earlier ones only. -/
theorem readsMeanings (h : s.BuiltFrom strict p g) {before after : List Scalar} {n : Scalar}
    (horder : p.order = before ++ n :: after) {outputs : List (Series α)}
    (hout : List.Forall₂ (s.NameMeans client asset t) before outputs) :
    s.ReadsMeanings client asset t g.nodes p.order outputs n := by
  intro v hdep a
  have hmem : .text v ∈ p.order := h.plan.hasName_iff.mp hdep.1
  have hn : p.order.idxOf n = before.length := h.plan.idxOf_eq (by simp [horder])
  have hlt : p.order.idxOf (.text v) < before.length := hn ▸ h.plan.forward hdep
  have hat : p.order[p.order.idxOf (.text v)]? = some (.text v) := List.getElem?_idxOf hmem
  have hlen : p.order.idxOf (.text v) < g.nodes.length :=
    h.length_nodes ▸ List.idxOf_lt_length_of_mem hmem
  generalize p.order.idxOf (.text v) = i at hlt hat hlen ⊢
  have hlt' : i < outputs.length := hout.length_eq ▸ hlt
  have hmeans := hout.get hlt hlt'
  have hname : before[i] = .text v := by
    rw [horder, List.getElem?_append_left hlt, List.getElem?_eq_getElem hlt] at hat
    exact Option.some.inj hat
  rw [List.get_eq_getElem, hname] at hmeans
  rw [Node.operand_eq_ok, position?_natCast hlen, Option.bind_some,
    List.getElem?_eq_getElem hlt', Option.some.injEq]
  constructor
  · intro heq
    exact heq ▸ hmeans
  · intro ha
    exact hmeans.unique h.plan ha

/-! ## One node -/

section Node

variable {c : Calculation} {n : Scalar} {node : Node} {outputs : List (Series α)} {x : Series α}

/-- A node that yields a series, over outputs that are meanings, yields the meaning of its
calculation. -/
theorem means_of_yields (h : s.BuiltFrom strict p g) (hc : c ∈ s.calculations)
    (hn : c.name = .scalar n) (hnode : c.CompilesTo p.order n node)
    (hread : s.ReadsMeanings client asset t g.nodes p.order outputs n)
    (hx : Node.Yields client asset t g.nodes outputs node x) : s.Means client asset t c x := by
  have hmean {role v} (hv : c.Refers role v) (hmem : .text v ∈ p.order) {a : Series α}
      (ha : Node.operand g.nodes outputs (p.order.idxOf (.text v)) = .ok a) :
      ∃ src ∈ s.calculations, src.name = .text v ∧ s.Means client asset t src a :=
    (hread v (h.plan.depends hc hn hv.exists_mem hmem) a).mp ha
  cases hnode with
  | query hop hf =>
    cases hx with
    | query hq => exact .query hop (hf.literal ▸ hq)
  | scalar hop hv hmem hnum =>
    rw [hop] at hx
    cases hx with
    | scalar ha hx =>
      obtain ⟨src, hsrc, hname, ha⟩ := hmean hv hmem ha
      obtain ⟨k, hk, hy⟩ := hnum.literal
      exact .scalar hop hv.literal hsrc hname ha hk hy hx
  | series hop hv hvmem hw hwmem =>
    rw [hop] at hx
    cases hx with
    | series ha hb hx =>
      obtain ⟨left, hleft, hlname, ha⟩ := hmean hv hvmem ha
      obtain ⟨right, hright, hrname, hb⟩ := hmean hw hwmem hb
      exact .series hop hv.literal hleft hlname ha hw.literal hright hrname hb hx
  | sma hop hv hmem hwindow =>
    cases hx with
    | sma ha hx =>
      obtain ⟨src, hsrc, hname, ha⟩ := hmean hv hmem ha
      obtain ⟨k, hk, hw⟩ := hwindow.literal
      exact .sma hop hv.literal hsrc hname ha hk hw hx

/-- The meaning of a calculation is what its node yields, over outputs that are meanings. -/
theorem yields_of_means (h : s.BuiltFrom strict p g) (hc : c ∈ s.calculations)
    (hn : c.name = .scalar n) (hnode : c.CompilesTo p.order n node)
    (hread : s.ReadsMeanings client asset t g.nodes p.order outputs n)
    (hx : s.Means client asset t c x) : Node.Yields client asset t g.nodes outputs node x := by
  have hoper {role v v'} (hv : c.Refers role v) (hmem : .text v ∈ p.order)
      (hv' : c.literal? role = some v') {src : Calculation} (hsrc : src ∈ s.calculations)
      (hname : src.name = .text v') {a : Series α} (ha : s.Means client asset t src a) :
      Node.operand g.nodes outputs (p.order.idxOf (.text v)) = .ok a := by
    obtain rfl := Option.some.inj (hv.literal.symm.trans hv')
    exact (hread v (h.plan.depends hc hn hv.exists_mem hmem) a).mpr ⟨src, hsrc, hname, ha⟩
  cases hnode with
  | query hop hf =>
    cases hx with
    | query _ hq => exact .query (hf.literal ▸ hq)
    | scalar hop' | series hop' | sma hop' => cases hop.symm.trans hop'
  | scalar hop hv hmem hnum =>
    cases hx with
    | scalar hop' hv' hsrc hname ha hk' hy' hx =>
      obtain ⟨k, hk, hy⟩ := hnum.literal
      obtain rfl := Option.some.inj (hk.symm.trans hk')
      obtain rfl := Option.some.inj (hy.symm.trans hy')
      rw [hop']
      exact .scalar (hoper hv hmem hv' hsrc hname ha) hx
    | query hop' | series hop' | sma hop' => cases hop.symm.trans hop'
  | series hop hv hvmem hw hwmem =>
    cases hx with
    | series hop' hv' hleft hlname ha hw' hright hrname hb hx =>
      rw [hop']
      exact .series (hoper hv hvmem hv' hleft hlname ha) (hoper hw hwmem hw' hright hrname hb) hx
    | query hop' | scalar hop' | sma hop' => cases hop.symm.trans hop'
  | sma hop hv hmem hwindow =>
    cases hx with
    | sma hop' hv' hsrc hname ha hk' hw' hx =>
      obtain ⟨k, hk, hw⟩ := hwindow.literal
      obtain rfl := Option.some.inj (hk.symm.trans hk')
      obtain rfl := Option.some.inj (hw.symm.trans hw')
      exact .sma (hoper hv hmem hv' hsrc hname ha) hx
    | query hop' | scalar hop' | series hop' => cases hop.symm.trans hop'

/-- A node yields what the name of its calculation means, if it reads meanings. -/
theorem yields_iff_nameMeans (h : s.BuiltFrom strict p g) (hc : c ∈ s.calculations)
    (hn : c.name = .scalar n) (hnode : c.CompilesTo p.order n node)
    (hread : s.ReadsMeanings client asset t g.nodes p.order outputs n) :
    Node.Yields client asset t g.nodes outputs node x ↔ s.NameMeans client asset t n x := by
  rw [nameMeans_iff h.plan hc hn]
  exact ⟨means_of_yields h hc hn hnode hread, yields_of_means h hc hn hnode hread⟩

end Node

/-! ## All nodes -/

/-- The rest of a pass, after outputs that are meanings, adds the meanings of the other names. -/
theorem runAll_iff_nameMeans (h : s.BuiltFrom strict p g) {before after : List Scalar}
    {rest : List Node} {outputs all : List (Series α)} (horder : p.order = before ++ after)
    (hrest : List.Forall₂ (fun name node ↦ ∃ c ∈ s.calculations, c.name = .scalar name ∧
      c.CompilesTo p.order name node) after rest)
    (hout : List.Forall₂ (s.NameMeans client asset t) before outputs) :
    (Node.runAll client asset t g.nodes outputs rest).result = .ok all ↔
      ∃ new, all = outputs ++ new ∧ List.Forall₂ (s.NameMeans client asset t) after new := by
  -- the nodes still to run, whatever has run before: each adds one meaning to the outputs
  induction hrest generalizing before outputs with
  | nil => simp [Node.runAll, eq_comm]
  | @cons n node after rest hnode hrest ih =>
    obtain ⟨c, hc, hn, hnode⟩ := hnode
    have hyields {x} : Node.Yields client asset t g.nodes outputs node x ↔
        s.NameMeans client asset t n x :=
      yields_iff_nameMeans h hc hn hnode (readsMeanings h horder hout)
    have hnext {x} (hx : s.NameMeans client asset t n x) :=
      ih (by simpa using horder) (List.rel_append hout (.cons hx .nil))
    rw [Node.runAll_cons_eq_ok]
    constructor
    · rintro ⟨x, hx, hall⟩
      obtain ⟨new, rfl, hnew⟩ := (hnext (hyields.mp hx)).mp hall
      exact ⟨x :: new, by simp, .cons (hyields.mp hx) hnew⟩
    · rintro ⟨_, rfl, _ | ⟨hx, hnew⟩⟩
      exact ⟨_, hyields.mpr hx, (hnext hx).mpr ⟨_, by simp, hnew⟩⟩

/-- A pass succeeds if there are meanings for all names, and these are its outputs. -/
theorem runAll_iff (h : s.BuiltFrom strict p g) {all : List (Series α)} :
    (Node.runAll client asset t g.nodes [] g.nodes).result = .ok all ↔
      List.Forall₂ (s.NameMeans client asset t) p.order all := by
  rw [runAll_iff_nameMeans h (List.nil_append _).symm h.nodes .nil]
  simp

theorem exists_forall₂_nameMeans {names : List Scalar} :
    (∃ all, List.Forall₂ (s.NameMeans client asset t) names all) ↔
      ∀ n ∈ names, ∃ x, s.NameMeans client asset t n x := by
  induction names with
  | nil => simp
  | cons n names ih => simp [List.forall₂_cons_left_iff, ← ih, exists_and_left]

/-- Every name of the order has a meaning exactly if every calculation has. -/
theorem forall_nameMeans_iff (h : s.BuiltFrom strict p g) :
    (∀ n ∈ p.order, ∃ x, s.NameMeans client asset t n x) ↔
      ∀ c ∈ s.calculations, ∃ x, s.Means client asset t c x := by
  constructor
  · intro hall c hc
    obtain ⟨n, hn⟩ := exists_mem_named h.plan.named hc
    have hname := ((mem_named h.plan.named).mp hn).2
    obtain ⟨x, hx⟩ := hall n (h.plan.hasName_iff.mp ⟨c, hc, hname⟩)
    exact ⟨x, (nameMeans_iff h.plan hc hname).mp hx⟩
  · intro hall n hn
    obtain ⟨c, hc, hname⟩ := h.plan.hasName_iff.mpr hn
    obtain ⟨x, hx⟩ := hall c hc
    exact ⟨x, (nameMeans_iff h.plan hc hname).mpr hx⟩

/-- A pass succeeds exactly if every calculation means something, the ones that do not reach the
score included. -/
theorem evaluate_iff (h : s.BuiltFrom strict p g) :
    (∃ r, (g.evaluate client asset t).result = .ok r) ↔
      ∀ c ∈ s.calculations, ∃ x, s.Means client asset t c x := by
  rw [← forall_nameMeans_iff h, ← exists_forall₂_nameMeans]
  constructor
  · rintro ⟨r, hr⟩
    obtain ⟨all, hall, -⟩ := h.evaluate_eq_ok.mp hr
    exact ⟨all, (runAll_iff h).mp hall⟩
  · rintro ⟨all, hall⟩
    obtain ⟨x, -, hr⟩ := h.evaluate_of_runAll ((runAll_iff h).mpr hall)
    exact ⟨_, hr⟩

/-! ## Outputs -/

/-- The output at the position of a name is what its calculation means. -/
theorem getElem?_idxOf_iff (h : s.BuiltFrom strict p g) {all : List (Series α)}
    (hall : List.Forall₂ (s.NameMeans client asset t) p.order all) {c : Calculation}
    (hc : c ∈ s.calculations) {n : Scalar} (hn : c.name = .scalar n) {x : Series α} :
    all[p.order.idxOf n]? = some x ↔ s.Means client asset t c x := by
  have hlt := List.idxOf_lt_length_of_mem (h.plan.hasName_iff.mp ⟨c, hc, hn⟩)
  have hlt' : p.order.idxOf n < all.length := hall.length_eq ▸ hlt
  have hmeans := hall.get hlt hlt'
  rw [List.get_eq_getElem, List.getElem_idxOf] at hmeans
  rw [← nameMeans_iff h.plan hc hn, List.getElem?_eq_getElem hlt', Option.some.injEq]
  constructor
  · intro heq
    exact heq ▸ hmeans
  · intro hx
    exact hmeans.unique h.plan hx

/-- The meanings of the names, taken in the order of execution, make up the meaning of the
strategy. -/
theorem isMeaning_zip (h : s.BuiltFrom strict p g) {all : List (Series α)}
    (hall : List.Forall₂ (s.NameMeans client asset t) p.order all) {x : Series α}
    (hx : all[p.order.idxOf p.score]? = some x) :
    (⟨asset, t, x, p.order.zip all⟩ : AssetScore α).IsMeaning s client asset t := by
  have hlen := hall.length_eq.symm
  refine ⟨rfl, rfl, ?_, h.plan.keys_zip_nodup hlen, ?_, ?_⟩
  · have hfst : (p.order.zip all).map (fun entry ↦ Doc.scalar entry.1) =
        p.order.map Doc.scalar := by
      rw [← Function.comp_def Doc.scalar, ← List.map_map, List.map_fst_zip hlen.ge]
    exact hfst ▸ h.names_perm
  · intro c hc n hn y
    rw [h.plan.find?_zip hlen (h.plan.hasName_iff.mp ⟨c, hc, hn⟩)]
    exact getElem?_idxOf_iff h hall hc hn
  · obtain ⟨-, hsame⟩ := scoreIn?_eq_some h.plan.score
    obtain ⟨c, hc, hn⟩ := h.plan.hasName_iff.mpr h.plan.score_mem
    exact ⟨c, hc, hn ▸ hsame, (getElem?_idxOf_iff h hall hc hn).mp hx⟩

/-- If every calculation has a meaning, the score is the meaning of the calculation of its name. -/
theorem exists_evaluate (h : s.BuiltFrom strict p g)
    (hmeans : ∀ c ∈ s.calculations, ∃ x, s.Means client asset t c x) {c : Calculation}
    (hc : c ∈ s.calculations) (hname : c.name = s.score) {x : Series α}
    (hx : s.Means client asset t c x) :
    ∃ r, (g.evaluate client asset t).result = .ok r ∧ r.score = x := by
  obtain ⟨r, hr⟩ := (evaluate_iff h).mpr hmeans
  obtain ⟨all, hall, hscore, -⟩ := h.evaluate_eq_ok.mp hr
  obtain ⟨n, hn⟩ := exists_mem_named h.plan.named hc
  have hn := ((mem_named h.plan.named).mp hn).2
  obtain rfl : n = p.score := by
    refine h.plan.eq_score ⟨c, hc, hn⟩ ?_
    rw [← hname, hn]
    exact Scalar.same_self n
  have hx := (getElem?_idxOf_iff h ((runAll_iff h).mp hall) hc hn).mpr hx
  exact ⟨r, hr, Option.some.inj (hscore.symm.trans hx)⟩

/-- A pass over a built graph succeeds if and only if every calculation has a meaning, and its
outputs are the meanings. -/
theorem build_evaluate {s : Strategy} {strict : Bool} {g : Graph} (h : s.build strict = .ok g)
    (client : Client α) (asset : Asset) (t : Option Instant) :
    ((∃ r, (g.evaluate client asset t).result = .ok r) ↔
      ∀ c ∈ s.calculations, ∃ x, s.Means client asset t c x) ∧
    ∀ r, (g.evaluate client asset t).result = .ok r → r.IsMeaning s client asset t := by
  obtain ⟨p, hp⟩ := exists_plan h
  refine ⟨evaluate_iff hp, ?_⟩
  intro r hr
  obtain ⟨all, hall, hscore, hr⟩ := hp.evaluate_eq_ok.mp hr
  rw [hr]
  exact isMeaning_zip hp ((runAll_iff hp).mp hall) hscore

end Strategy

theorem crossover_isMeaning : ∃ r : AssetScore Rat,
    crossover.build true = .ok crossoverGraph ∧
      (crossoverGraph.evaluate fourPrices ⟨"A"⟩ (some ⟨4⟩)).result = .ok r ∧
      r.score = ⟨[(⟨3⟩, 1 / 13), (⟨4⟩, 1 / 39)]⟩ ∧
      r.IsMeaning crossover fourPrices ⟨"A"⟩ (some ⟨4⟩) := by
  obtain ⟨r, hr, hscore⟩ := exists_crossover
  exact ⟨r, crossover_build, hr, hscore, (Strategy.build_evaluate crossover_build _ _ _).2 r hr⟩

end ScorePortfolio

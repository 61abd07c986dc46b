import ScorePortfolio.Proofs.Strategy.Plan
import ScorePortfolio.Proofs.Strategy.Operands

/-!
# Strategies in another order

The calculations of a strategy may be listed in another order, and so may the operands of a
calculation as long as their roles tell them apart.  Names, dependencies and the operand of each
role stay what they are, since none of them is a matter of position.
-/

namespace ScorePortfolio

/-- Where at most one item passes the test, the order of the list does not decide which is found. -/
theorem find?_perm {α : Type} {p : α → Bool} {l l' : List α} (h : l.Perm l')
    (hone : l.Pairwise fun a b ↦ p a = true → p b = false) : l.find? p = l'.find? p := by
  have hsymm : ∀ a b, (p a = true → p b = false) → p b = true → p a = false := by
    intro a b hab hb
    by_contra ha
    exact absurd (hab (by simpa using ha)) (by simp [hb])
  induction h with
  | nil => rfl
  | cons a _ ih => rw [List.find?_cons, List.find?_cons, ih (List.pairwise_cons.mp hone).2]
  | swap a b l =>
    have hba := (List.pairwise_cons.mp hone).1 a List.mem_cons_self
    cases ha : p a <;> cases hb : p b <;> simp_all
  | trans h₁ _ ih₁ ih₂ => exact (ih₁ hone).trans (ih₂ (h₁.pairwise hone (hsymm _ _)))

/-! ## Operands -/

namespace Calculation

/-- No text is the role of two operands.  Roles that are no texts are never looked for. -/
def DistinctRoles (c : Calculation) : Prop :=
  c.operands.Pairwise fun a b ↦ ∀ t, a.role = .text t → b.role ≠ .text t

/-- The second calculation is the first one, with its operands in another order if their roles are
distinct. -/
structure Reorders (c c' : Calculation) : Prop where
  name : c.name = c'.name
  operation : c.operation = c'.operation
  operands : c.operands = c'.operands ∨ c.DistinctRoles ∧ c.operands.Perm c'.operands

theorem role_same_text {o : Operand} {t : String} :
    o.role.same (.text t) = true ↔ o.role = .text t := by
  cases hrole : o.role with
  | scalar a => simp [Doc.same, same_iff, eq_comm (a := a.key), ← text_same_iff]
  | list items => simp [Doc.same]
  | map entries => simp [Doc.same]

/-- Roles that are told apart as values are distinct. -/
theorem distinctRoles_of_same {c : Calculation}
    (h : c.operands.Pairwise fun a b ↦ a.role.same b.role = false) : c.DistinctRoles := by
  refine h.imp ?_
  intro a b hab t ha hb
  simp [ha, hb, Doc.same] at hab

namespace Reorders

variable {c c' : Calculation}

theorem refl (c : Calculation) : c.Reorders c := ⟨rfl, rfl, .inl rfl⟩

theorem operands_perm (h : c.Reorders c') : c.operands.Perm c'.operands := by
  rcases h.operands with heq | ⟨-, hperm⟩
  · exact heq ▸ .refl _
  · exact hperm

theorem symm (h : c.Reorders c') : c'.Reorders c := by
  refine ⟨h.name.symm, h.operation.symm, ?_⟩
  rcases h.operands with heq | ⟨hroles, hperm⟩
  · exact .inl heq.symm
  · exact .inr ⟨hperm.pairwise hroles fun hab t hb ha ↦ hab t ha hb, hperm.symm⟩

theorem mem_operands (h : c.Reorders c') {o : Operand} : o ∈ c.operands ↔ o ∈ c'.operands :=
  h.operands_perm.mem_iff

/-- Each role has the same operand. -/
theorem operand? (h : c.Reorders c') (role : String) :
    c.operand? (.text role) = c'.operand? (.text role) := by
  rcases h.operands with heq | ⟨hroles, hperm⟩
  · rw [Calculation.operand?, heq, Calculation.operand?]
  · refine find?_perm hperm (hroles.imp ?_)
    intro a b hab ha
    have hb : ¬ b.role.same (.text role) = true := fun hb ↦
      hab role (role_same_text.mp ha) (role_same_text.mp hb)
    exact Bool.eq_false_iff.mpr hb

section Roles

variable {role : String}

theorem hasReference (h : c.Reorders c') (hc : c.HasReference role) : c'.HasReference role := by
  rwa [HasReference, ← h.operand?]

theorem refers (h : c.Reorders c') {v : String} (hc : c.Refers role v) : c'.Refers role v := by
  rwa [Refers, ← h.operand?]

theorem hasNumber (h : c.Reorders c') {x : Float} (hc : c.HasNumber role x) :
    c'.HasNumber role x := by
  rwa [HasNumber, ← h.operand?]

theorem hasWindow (h : c.Reorders c') {n : Int} (hc : c.HasWindow role n) :
    c'.HasWindow role n := by
  rwa [HasWindow, ← h.operand?]

theorem hasField (h : c.Reorders c') {f : Option String} (hc : c.HasField role f) :
    c'.HasField role f := by
  rwa [HasField, ← h.operand?]

end Roles

/-- Whether a calculation has its operands does not depend on their order. -/
theorem hasOperands (h : c.Reorders c') (hc : c.HasOperands) : c'.HasOperands := by
  rw [HasOperands] at hc ⊢
  rw [← h.operation]
  split at hc
  · exact hc.imp fun _ ↦ h.hasField
  · exact ⟨h.hasReference hc.1, hc.2.imp fun _ ↦ h.hasNumber⟩
  · exact ⟨h.hasReference hc.1, h.hasReference hc.2⟩
  · exact ⟨h.hasReference hc.1, hc.2.imp fun _ ↦ h.hasWindow⟩

end Reorders

end Calculation

/-! ## Calculations -/

namespace Strategy

/-- The second strategy is the first one, with its calculations in another order, and the operands
of calculations with distinct roles. -/
structure Reorders (s s' : Strategy) : Prop where
  name : s.name = s'.name
  score : s.score = s'.score
  calculations : ∃ cs, s.calculations.Perm cs ∧
    List.Forall₂ Calculation.Reorders cs s'.calculations

namespace Reorders

variable {s s' : Strategy}

theorem symm (h : s.Reorders s') : s'.Reorders s := by
  obtain ⟨cs, hperm, hcs⟩ := h.calculations
  have hback : List.Forall₂ Calculation.Reorders s'.calculations cs :=
    hcs.flip.imp fun _ _ hc ↦ hc.symm
  refine ⟨h.name.symm, h.score.symm, ?_⟩
  obtain ⟨ds, hds, hperm'⟩ : Relation.Comp List.Perm (List.Forall₂ Calculation.Reorders)
      s'.calculations s.calculations := by
    rw [← List.forall₂_comp_perm_eq_perm_comp_forall₂]
    exact ⟨cs, hback, hperm.symm⟩
  exact ⟨ds, hds, hperm'⟩

/-- Each calculation stands in the reordered strategy with its operands reordered. -/
theorem exists_mem (h : s.Reorders s') {c : Calculation} (hc : c ∈ s.calculations) :
    ∃ c' ∈ s'.calculations, c.Reorders c' := by
  obtain ⟨cs, hperm, hcs⟩ := h.calculations
  obtain ⟨i, hi, rfl⟩ := List.getElem_of_mem (hperm.mem_iff.mp hc)
  have hi' : i < s'.calculations.length := hcs.length_eq ▸ hi
  exact ⟨_, List.getElem_mem hi', hcs.get hi hi'⟩

/-- A reordered strategy has the same names. -/
theorem names_perm (h : s.Reorders s') :
    (s.calculations.map (·.name)).Perm (s'.calculations.map (·.name)) := by
  obtain ⟨cs, hperm, hcs⟩ := h.calculations
  have hnames : List.Forall₂ (· = ·) (cs.map (·.name)) (s'.calculations.map (·.name)) := by
    rw [List.forall₂_map_left_iff, List.forall₂_map_right_iff]
    exact hcs.imp fun _ _ hc ↦ hc.name
  rw [List.forall₂_eq_eq_eq] at hnames
  exact hnames ▸ hperm.map _

theorem textNames (h : s.Reorders s') (hs : s.TextNames) : s'.TextNames := by
  intro c' hc'
  obtain ⟨c, hc, hcc'⟩ := h.symm.exists_mem hc'
  rw [hcc'.name]
  exact hs c hc

theorem hasName (h : s.Reorders s') {n : Scalar} (hn : s.HasName n) : s'.HasName n := by
  obtain ⟨c, hc, hn⟩ := hn
  obtain ⟨c', hc', hcc'⟩ := h.exists_mem hc
  exact ⟨c', hc', hcc'.name ▸ hn⟩

/-- Dependencies survive the reordering of calculations and operands. -/
theorem depends (h : s.Reorders s') {a b : Scalar} (hab : s.Depends a b) : s'.Depends a b := by
  obtain ⟨ha, c, hc, hb, o, ho, v, hv⟩ := hab
  obtain ⟨c', hc', hcc'⟩ := h.exists_mem hc
  exact ⟨h.hasName ha, c', hc', hcc'.name ▸ hb, o, hcc'.mem_operands.mp ho, v, hv⟩

theorem depends_eq (h : s.Reorders s') : s.Depends = s'.Depends := by
  funext a b
  exact propext ⟨h.depends, h.symm.depends⟩

theorem linked_eq (h : s.Reorders s') : s.Linked = s'.Linked := by
  rw [Linked, h.depends_eq, Linked]

/-- Whether every reference leads to a calculation does not depend on the order. -/
theorem knownReferences (h : s.Reorders s') (hs : s.KnownReferences) : s'.KnownReferences := by
  intro c' hc' hop o ho hkind
  obtain ⟨c, hc, hcc'⟩ := h.symm.exists_mem hc'
  obtain ⟨v, hv, hname⟩ := hs c hc (hcc'.operation ▸ hop) o (hcc'.mem_operands.mp ho) hkind
  exact ⟨v, hv, h.hasName hname⟩

end Reorders

end Strategy

end ScorePortfolio

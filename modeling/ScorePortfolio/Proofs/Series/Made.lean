import ScorePortfolio.Proofs.Series.ColumnOperations
import Mathlib.Data.List.Induction

/-!
# Everything that is made of series

A list of commands makes series, each command from what the ones before it have made.  The same
commands can be run on series and on columns, whose operations check nothing.  Whatever the
commands are, all columns that come out fit, they are those of the series, and none of them is
changed by later commands.
-/

namespace ScorePortfolio

/-- The four ways to cut at a moment. -/
inductive Cut where
  | upTo
  | before
  | fromOn
  | after

/-- The operations from which series are made, over what holds a series. -/
structure Operations (R : Type) where
  ofArray? : List (Option Instant) → NumberArray → Option R
  regular? : NumberArray → Option Instant → String → Option R
  ofItems? : List (Option Instant × Float) → Option R
  empty : R
  withScalar? : Arithmetic → R → Float → Option R
  withSeries? : Arithmetic → R → R → Option R
  sma? : R → Int → Option R
  zeroNegatives : R → R
  relativeChange? : R → Option R
  cut : Cut → R → Option Instant → R
  align : R → R → R × R

/-- A call of an operation; what has been made before is named by its position. -/
inductive Command where
  | ofArray (index : List (Option Instant)) (array : NumberArray)
  | regular (array : NumberArray) (start : Option Instant) (step : String)
  | ofItems (items : List (Option Instant × Float))
  | empty
  | withScalar (op : Arithmetic) (source : Nat) (number : Float)
  | withSeries (op : Arithmetic) (left right : Nat)
  | sma (source : Nat) (window : Int)
  | zeroNegatives (source : Nat)
  | relativeChange (source : Nat)
  | cut (kind : Cut) (source : Nat) (moment : Option Instant)
  | align (left right : Nat)

/-- What a command makes, from what has been made before.  An operation that is refused, or a date
that no index can hold, makes nothing. -/
def Command.run {R : Type} (ops : Operations R) (made : List R) : Command → Option (List R)
  | ofArray index array => do
    let index ← (index.mapM Instant.fitOf).toOption
    return [← ops.ofArray? index array]
  | regular array start step => do return [← ops.regular? array start step]
  | ofItems items => do
    let _ ← ((items.map (·.1)).mapM Instant.fitOf).toOption
    return [← ops.ofItems? items]
  | empty => some [ops.empty]
  | withScalar op source number => do return [← ops.withScalar? op (← made[source]?) number]
  | withSeries op left right => do return [← ops.withSeries? op (← made[left]?) (← made[right]?)]
  | sma source window => do return [← ops.sma? (← made[source]?) window]
  | zeroNegatives source => do return [ops.zeroNegatives (← made[source]?)]
  | relativeChange source => do return [← ops.relativeChange? (← made[source]?)]
  | cut kind source moment => do
    let moment ← (Instant.fitOf moment).toOption
    return [ops.cut kind (← made[source]?) moment]
  | align left right => do
    let (l, r) := ops.align (← made[left]?) (← made[right]?)
    return [l, r]

/-- All that a list of commands makes, in order. -/
def Operations.made {R : Type} (ops : Operations R) (commands : List Command) : List R :=
  commands.foldl (fun made command ↦ made ++ (command.run ops made).getD []) []

/-- The operations on series. -/
def Series.operations : Operations (Series Float) where
  ofArray? index array := (ofArray index array).toOption
  regular? array start step := (regular array start step).toOption
  ofItems? items := (ofItems items).toOption
  empty := empty
  withScalar? op s k := (s.withScalar op k).toOption
  withSeries? op a b := (a.withSeries op b).toOption
  sma? s window := (s.sma window).toOption
  zeroNegatives := zeroNegatives
  relativeChange? s := s.relativeChange.toOption
  cut
    | .upTo => upTo
    | .before => before
    | .fromOn => fromOn
    | .after => after
  align := align

/-- The operations on columns. -/
def Columns.operations : Operations (Columns Float) where
  ofArray? := ofArray?
  regular? := regular?
  ofItems? := ofItems?
  empty := empty
  withScalar? := withScalar?
  withSeries? := withSeries?
  sma? := sma?
  zeroNegatives := zeroNegatives
  relativeChange? := relativeChange?
  cut
    | .upTo => upTo
    | .before => before
    | .fromOn => fromOn
    | .after => after
  align := align

/-! ## Operations keep moments in order -/

namespace Series

variable {α : Type} {s : Series α}

/-- Given values make no series without passing the check of its index. -/
theorem isIncreasing_of_ofArray {index : List (Option Instant)} {array : NumberArray}
    {s : Series Float} (h : ofArray index array = .ok s) : s.IsIncreasing := by
  rw [ofArray] at h
  split at h
  · cases h
  · exact isIncreasing_of_ofColumns h

/-- Nor do values on a regular index. -/
theorem isIncreasing_of_regular {array : NumberArray} {start : Option Instant} {step : String}
    {s : Series Float} (h : regular array start step = .ok s) : s.IsIncreasing := by
  obtain ⟨_, -, h⟩ := bind_eq_ok.mp h
  obtain ⟨_, -, h⟩ := bind_eq_ok.mp h
  obtain ⟨_, -, h⟩ := bind_eq_ok.mp h
  obtain ⟨_, -, h⟩ := bind_eq_ok.mp h
  exact isIncreasing_of_ofArray (mapError_eq_ok.mp h)

theorem IsIncreasing.cut (h : s.IsIncreasing) {points : List (Instant × α)}
    (hsub : points.Sublist s.points) : (⟨points⟩ : Series α).IsIncreasing :=
  List.Pairwise.sublist (hsub.map _) h

theorem IsIncreasing.before (h : s.IsIncreasing) (t : Option Instant) :
    (s.before t).IsIncreasing := by
  cases t with
  | none => exact h
  | some t => exact h.cut (List.takeWhile_sublist _)

theorem IsIncreasing.fromOn (h : s.IsIncreasing) (t : Option Instant) :
    (s.fromOn t).IsIncreasing := by
  cases t with
  | none => exact .nil
  | some t => exact h.cut (List.dropWhile_sublist _)

theorem IsIncreasing.after (h : s.IsIncreasing) (t : Option Instant) :
    (s.after t).IsIncreasing := by
  cases t with
  | none => exact .nil
  | some t => exact h.cut (List.dropWhile_sublist _)

theorem IsIncreasing.changes [Quantity α] (h : s.IsIncreasing) : s.changes.IsIncreasing := by
  rw [IsIncreasing, index_changes]
  exact List.Pairwise.sublist (List.tail_sublist _) h

end Series

/-! ## Related results -/

section Related

variable {β β' γ γ' : Type} {R : β → β' → Prop} {S : γ → γ' → Prop}

/-- Related first steps followed by related second ones are related. -/
theorem rel_bind {x : Option β} {y : Option β'} {f : β → Option γ} {g : β' → Option γ'}
    (hxy : Option.Rel R x y) (hfg : ∀ a b, R a b → Option.Rel S (f a) (g b)) :
    Option.Rel S (x >>= f) (y >>= g) := by
  cases hxy with
  | some hab => exact hfg _ _ hab
  | none => exact .none

/-- Lists that are related item by item are so at every position. -/
theorem rel_getElem? {xs : List β} {ys : List β'} (h : List.Forall₂ R xs ys) (i : Nat) :
    Option.Rel R xs[i]? ys[i]? := by
  induction h generalizing i with
  | nil => exact .none
  | cons hxy _ ih =>
    cases i with
    | zero => exact .some hxy
    | succ i => exact ih i

theorem rel_bind_self {x : Option β} {f : β → Option γ} {g : β → Option γ'}
    (hfg : ∀ a, Option.Rel S (f a) (g a)) : Option.Rel S (x >>= f) (x >>= g) := by
  cases x with
  | some a => exact hfg a
  | none => exact .none

theorem rel_getD {x : Option (List β)} {y : Option (List β')}
    (h : Option.Rel (List.Forall₂ R) x y) : List.Forall₂ R (x.getD []) (y.getD []) := by
  cases h with
  | some hab => exact hab
  | none => exact .nil

end Related

/-! ## Columns that hold a series -/

namespace Columns

variable {α : Type}

/-- The columns are those of the series, whose moments increase. -/
def Holds (c : Columns α) (s : Series α) : Prop := s.IsIncreasing ∧ c = s.columns

theorem Holds.isValid {c : Columns α} {s : Series α} (h : c.Holds s) : c.IsValid := by
  obtain ⟨hinc, rfl⟩ := h
  exact Series.columns_isValid.mpr hinc

/-- Both operations fail, or both succeed and the columns hold the series. -/
theorem holds_toOption {ε : Type} {c : Option (Columns α)} {x : Except ε (Series α)}
    (hcolumns : x.toOption.map Series.columns = c) (hinc : ∀ s, x = .ok s → s.IsIncreasing) :
    Option.Rel Holds c x.toOption := by
  subst hcolumns
  cases x with
  | ok s => exact .some ⟨hinc s rfl, rfl⟩
  | error e => exact .none

section Operations

variable {c d : Columns Float} {s a b : Series Float}

theorem holds_ofArray (index : List (Option Instant)) (array : NumberArray) :
    Option.Rel Holds (ofArray? index array) (Series.ofArray index array).toOption :=
  holds_toOption (Series.columns_ofArray index array) fun _ ↦ Series.isIncreasing_of_ofArray

theorem holds_regular (array : NumberArray) (start : Option Instant) (step : String) :
    Option.Rel Holds (regular? array start step) (Series.regular array start step).toOption :=
  holds_toOption (Series.columns_regular array start step) fun _ ↦ Series.isIncreasing_of_regular

theorem holds_ofItems (items : List (Option Instant × Float)) :
    Option.Rel Holds (ofItems? items) (Series.ofItems items).toOption :=
  holds_toOption (Series.columns_ofItems items) fun _ ↦ Series.isIncreasing_of_ofColumns

theorem Holds.withScalar (h : c.Holds s) (op : Arithmetic) (k : Float) :
    Option.Rel Holds (c.withScalar? op k) (s.withScalar op k).toOption := by
  obtain ⟨hinc, rfl⟩ := h
  exact holds_toOption (Series.columns_withScalar op s k) fun _ ↦ hinc.withScalar

/-- Columns that hold two series have the result of an operation on them. -/
theorem Holds.withSeries (ha : c.Holds a) (hb : d.Holds b) (op : Arithmetic) :
    Option.Rel Holds (c.withSeries? op d) (a.withSeries op b).toOption := by
  obtain ⟨hinc, rfl⟩ := ha
  obtain ⟨hinc', rfl⟩ := hb
  exact holds_toOption (Series.columns_withSeries op a b) fun _ ↦ hinc.withSeries hinc'

theorem Holds.sma (h : c.Holds s) (window : Int) :
    Option.Rel Holds (c.sma? window) (s.sma window).toOption := by
  obtain ⟨hinc, rfl⟩ := h
  exact holds_toOption (Series.columns_sma s window) fun _ ↦ hinc.sma

theorem Holds.zeroNegatives (h : c.Holds s) : c.zeroNegatives.Holds s.zeroNegatives := by
  obtain ⟨hinc, rfl⟩ := h
  exact ⟨hinc.map _, (Series.columns_map _ s).symm⟩

/-- Columns that hold a series hold its relative changes. -/
theorem Holds.relativeChange (h : c.Holds s) :
    Option.Rel Holds c.relativeChange? s.relativeChange.toOption := by
  obtain ⟨hinc, rfl⟩ := h
  refine holds_toOption (Series.columns_relativeChange s) ?_
  intro x hx
  rw [Series.relativeChange] at hx
  split at hx
  · cases hx
  · exact Except.ok.inj hx ▸ hinc.changes

/-- They hold every part that is cut from it. -/
theorem Holds.cut (h : c.Holds s) (kind : Cut) (t : Option Instant) :
    (operations.cut kind c t).Holds (Series.operations.cut kind s t) := by
  obtain ⟨hinc, rfl⟩ := h
  cases kind with
  | upTo => exact ⟨hinc.upTo t, (hinc.columns_upTo t).symm⟩
  | before => exact ⟨hinc.before t, (hinc.columns_before t).symm⟩
  | fromOn => exact ⟨hinc.fromOn t, (hinc.columns_fromOn t).symm⟩
  | after => exact ⟨hinc.after t, (hinc.columns_after t).symm⟩

/-- Columns that hold two series hold both sides of their join. -/
theorem Holds.align (ha : c.Holds a) (hb : d.Holds b) :
    (c.align d).1.Holds (a.align b).1 ∧ (c.align d).2.Holds (a.align b).2 := by
  obtain ⟨hinc, rfl⟩ := ha
  obtain ⟨hinc', rfl⟩ := hb
  obtain ⟨hleft, hright⟩ := hinc.align hinc'
  rw [Series.columns_align]
  exact ⟨⟨hleft, rfl⟩, hright, rfl⟩

end Operations

end Columns

/-! ## Runs -/

namespace Command

/-- A command on columns that hold series makes columns that hold series. -/
theorem run_holds (command : Command) {cs : List (Columns Float)} {ss : List (Series Float)}
    (h : List.Forall₂ Columns.Holds cs ss) :
    Option.Rel (List.Forall₂ Columns.Holds) (command.run Columns.operations cs)
      (command.run Series.operations ss) := by
  have hat (i : Nat) : Option.Rel Columns.Holds cs[i]? ss[i]? := rel_getElem? h i
  have hone {c s} (hcs : Columns.Holds (α := Float) c s) :
      Option.Rel (List.Forall₂ Columns.Holds) (some [c]) (some [s]) := .some (.cons hcs .nil)
  cases command with
  | ofArray index array =>
    refine rel_bind_self fun index ↦ ?_
    exact rel_bind (Columns.holds_ofArray index array) fun _ _ ↦ hone
  | regular array start step =>
    exact rel_bind (Columns.holds_regular array start step) fun _ _ ↦ hone
  | ofItems items =>
    refine rel_bind_self fun _ ↦ ?_
    exact rel_bind (Columns.holds_ofItems items) fun _ _ ↦ hone
  | empty => exact hone ⟨.nil, rfl⟩
  | withScalar op source number =>
    refine rel_bind (hat source) fun c s hcs ↦ ?_
    exact rel_bind (hcs.withScalar op number) fun _ _ ↦ hone
  | withSeries op left right =>
    refine rel_bind (hat left) fun c a hca ↦ ?_
    refine rel_bind (hat right) fun d b hdb ↦ ?_
    exact rel_bind (hca.withSeries hdb op) fun _ _ ↦ hone
  | sma source window =>
    refine rel_bind (hat source) fun c s hcs ↦ ?_
    exact rel_bind (hcs.sma window) fun _ _ ↦ hone
  | zeroNegatives source =>
    exact rel_bind (hat source) fun c s hcs ↦ hone hcs.zeroNegatives
  | relativeChange source =>
    refine rel_bind (hat source) fun c s hcs ↦ ?_
    exact rel_bind hcs.relativeChange fun _ _ ↦ hone
  | cut kind source moment =>
    refine rel_bind_self fun moment ↦ ?_
    exact rel_bind (hat source) fun c s hcs ↦ hone (hcs.cut kind moment)
  | align left right =>
    refine rel_bind (hat left) fun c a hca ↦ ?_
    refine rel_bind (hat right) fun d b hdb ↦ ?_
    obtain ⟨hleft, hright⟩ := hca.align hdb
    exact .some (.cons hleft (.cons hright .nil))

end Command

namespace Operations

theorem made_append {R : Type} (ops : Operations R) (commands : List Command) (command : Command) :
    ops.made (commands ++ [command]) =
      ops.made commands ++ (command.run ops (ops.made commands)).getD [] := by
  simp [made]

/-- Later commands change nothing that has been made. -/
theorem made_prefix {R : Type} (ops : Operations R) (commands more : List Command) :
    ops.made commands <+: ops.made (commands ++ more) := by
  induction more using List.reverseRecOn with
  | nil => simp
  | append_singleton more command ih =>
    rw [← List.append_assoc, made_append]
    exact ih.trans (List.prefix_append _ _)

end Operations

/-- All columns that commands make hold the series that they make. -/
theorem Columns.made_holds (commands : List Command) :
    List.Forall₂ Columns.Holds (operations.made commands) (Series.operations.made commands) := by
  induction commands using List.reverseRecOn with
  | nil => exact .nil
  | append_singleton commands command ih =>
    rw [Operations.made_append, Operations.made_append]
    exact List.rel_append ih (rel_getD (command.run_holds ih))

/-- Whatever the commands are, the columns that they make fit, with moments that increase strictly
and none missing, although only the constructors check this; they are the columns of the series that
the commands make; and no later command changes them. -/
theorem Columns.made_isValid (commands : List Command) :
    (∀ c ∈ operations.made commands, c.IsValid) ∧
      operations.made commands = (Series.operations.made commands).map Series.columns ∧
      ∀ more, operations.made commands <+: operations.made (commands ++ more) := by
  have hholds := made_holds commands
  refine ⟨?_, ?_, Operations.made_prefix _ commands⟩
  · intro c hc
    obtain ⟨i, hi, rfl⟩ := List.getElem_of_mem hc
    exact (hholds.get hi (hholds.length_eq ▸ hi)).isValid
  · rw [← List.forall₂_eq_eq_eq, List.forall₂_map_right_iff]
    exact hholds.imp fun _ _ h ↦ h.2

end ScorePortfolio

import ScorePortfolio.Proofs.Series.Cells
import ScorePortfolio.Series.Regular

/-!
# Series as two columns

A series can be held as an index beside a list of values.  Nothing then makes the two fit: the index
may be longer, out of order, or lack a date.  The constructors check the columns that they get;
every other operation computes both sides of its result separately and trusts that they fit.  Here
are the operations on columns, with no check but those that an operation makes of its arguments, and
the proof that on the columns of a series they yield the columns of its results.
-/

namespace ScorePortfolio

/-- The count under which an index stores a date; the missing one has the least of all. -/
def Instant.stored : Option Instant → Int
  | none => earliest.nanoseconds - 1
  | some t => t.nanoseconds

@[simp] theorem Instant.stored_some_lt {t u : Instant} :
    stored (some t) < stored (some u) ↔ t < u :=
  Iff.rfl

/-- An index beside a list of values. -/
structure Columns (α : Type) where
  index : List (Option Instant)
  values : List α

namespace Columns

variable {α β : Type}

/-- The columns fit, and the dates are moments that increase strictly. -/
structure IsValid (c : Columns α) : Prop where
  lengths : c.index.length = c.values.length
  present : none ∉ c.index
  increasing : c.index.Pairwise fun d e ↦ Instant.stored d < Instant.stored e

instance (c : Columns α) : Decidable c.IsValid :=
  decidable_of_iff (c.index.length = c.values.length ∧ none ∉ c.index ∧
      c.index.Pairwise fun d e ↦ Instant.stored d < Instant.stored e)
    ⟨fun ⟨hlen, hpresent, hinc⟩ ↦ ⟨hlen, hpresent, hinc⟩, fun h ↦ ⟨h.1, h.2, h.3⟩⟩

/-! ## Constructors -/

/-- The columns, if they fit. -/
def checked? (c : Columns α) : Option (Columns α) := if c.IsValid then some c else none

/-- The given columns. -/
def ofArray? (index : List (Option Instant)) (array : NumberArray) : Option (Columns Float) :=
  if array.shape.length = 1 then checked? ⟨index, array.cells⟩ else none

/-- The moments of a regular index. -/
def regularIndex (start : Option Instant) (step : String) (count : Nat) :
    Except RegularError (List Instant) := do
  let start ← start.elim (.error .noStart) .ok
  let step ← (Step.parse step).mapError .step
  ((Step.instants start step count).mapM Instant.fit).mapError .range

/-- The given values on a regular index. -/
def regular? (array : NumberArray) (start : Option Instant) (step : String) :
    Option (Columns Float) := do
  let count ← array.shape.head?
  let index ← (regularIndex start step count).toOption
  ofArray? (index.map some) array

/-- The columns of items, put in order. -/
def ofItems? (items : List (Option Instant × α)) : Option (Columns α) :=
  let sorted := Series.sortItems items
  checked? ⟨sorted.map (·.1), sorted.map (·.2)⟩

/-- No dates and no values. -/
def empty : Columns α := ⟨[], []⟩

/-! ## Values -/

/-- The same index with a function applied to each value. -/
def map (f : α → β) (c : Columns α) : Columns β := ⟨c.index, c.values.map f⟩

/-! ## Cuts -/

/-- The part of either side between two positions. -/
def slice (c : Columns α) (start stop : Nat) : Columns α :=
  ⟨(c.index.take stop).drop start, (c.values.take stop).drop start⟩

/-- The position of the first date that is not before a moment; all are before the missing one. -/
def left (c : Columns α) : Option Instant → Nat
  | none => c.index.length
  | some t => c.index.countP fun d ↦ Instant.stored d < t.nanoseconds

/-- The position of the first date after a moment. -/
def right (c : Columns α) : Option Instant → Nat
  | none => c.index.length
  | some t => c.index.countP fun d ↦ Instant.stored d ≤ t.nanoseconds

/-- The part up to a moment. -/
def upTo (c : Columns α) (t : Option Instant) : Columns α := c.slice 0 (c.right t)

/-- The part before a moment. -/
def before (c : Columns α) (t : Option Instant) : Columns α := c.slice 0 (c.left t)

/-- The part from a moment on. -/
def fromOn (c : Columns α) (t : Option Instant) : Columns α := c.slice (c.left t) c.values.length

/-- The part after a moment. -/
def after (c : Columns α) (t : Option Instant) : Columns α := c.slice (c.right t) c.values.length

/-! ## Alignment -/

/-- The positions of equal dates, by one walk along both lists: on the side of the lesser date it
goes on, at equal dates on both. -/
def meet (i j : Nat) : List (Option Instant) → List (Option Instant) → List (Nat × Nat)
  | d :: ds, e :: es =>
    if Instant.stored d < Instant.stored e then meet (i + 1) j ds (e :: es)
    else if Instant.stored e < Instant.stored d then meet i (j + 1) (d :: ds) es
    else (i, j) :: meet (i + 1) (j + 1) ds es
  | _, _ => []
termination_by ds es => ds.length + es.length

/-- The items at positions. -/
def pick {γ : Type} (items : List γ) (positions : List Nat) : List γ :=
  positions.filterMap (items[·]?)

/-- Both columns at the dates that they share; the index comes from the first and serves both. -/
def align (c d : Columns α) : Columns α × Columns α :=
  let met := meet 0 0 c.index d.index
  let index := pick c.index (met.map (·.1))
  (⟨index, pick c.values (met.map (·.1))⟩, ⟨index, pick d.values (met.map (·.2))⟩)

/-- A function of both values at each shared date. -/
def zipWith (f : α → α → α) (c d : Columns α) : Columns α :=
  let (l, r) := align c d
  ⟨l.index, List.zipWith f l.values r.values⟩

/-! ## Arithmetic, windows and changes -/

variable [Quantity α]

/-- An operation with a number. -/
def withScalar? (op : Arithmetic) (c : Columns α) (k : α) : Option (Columns α) :=
  match op with
  | .add => some (c.map (· + k))
  | .sub => some (c.map (· - k))
  | .mul => some (c.map (· * k))
  | .div => if Quantity.eq k Quantity.zero then none else some (c.map (· / k))

/-- An operation with other columns. -/
def withSeries? (op : Arithmetic) (c d : Columns α) : Option (Columns α) :=
  match op with
  | .add => some (zipWith (· + ·) c d)
  | .sub => some (zipWith (· - ·) c d)
  | .mul => some (zipWith (· * ·) c d)
  | .div =>
    if (align c d).2.values.any (Quantity.eq · Quantity.zero) then none
    else some (zipWith (· / ·) c d)

/-- The moving average: the index loses its first dates, the values become those of the windows. -/
def sma? (c : Columns α) (window : Int) : Option (Columns α) :=
  if window < 1 ∨ c.values.length < window then none
  else
    let w := window.toNat
    some ⟨c.index.drop (w - 1), (windows w c.values).map Quantity.mean⟩

/-- No value below zero. -/
def zeroNegatives (c : Columns α) : Columns α := c.map Quantity.clamp

/-- The relative changes: the index loses its first date, the values are divided by those before. -/
def relativeChange? (c : Columns α) : Option (Columns α) :=
  if c.values.length < 2 then some empty
  else
    let previous := c.values.dropLast
    if previous.any (Quantity.eq · Quantity.zero) then none
    else some ⟨c.index.tail, List.zipWith Quantity.change previous c.values.tail⟩

end Columns

/-! ## Columns of a series -/

namespace Series

variable {α β : Type}

/-- The two sides of a series. -/
def columns (s : Series α) : Columns α := ⟨s.index.map some, s.values⟩

@[simp] theorem columns_index (s : Series α) : s.columns.index = s.index.map some := rfl

@[simp] theorem columns_values (s : Series α) : s.columns.values = s.values := rfl

/-- The columns of a series fit if and only if its moments increase. -/
theorem columns_isValid {s : Series α} : s.columns.IsValid ↔ s.IsIncreasing := by
  constructor
  · intro h
    exact List.pairwise_map (f := some).mp h.increasing
  · intro h
    exact ⟨by simp, by simp, List.pairwise_map.mpr h⟩

/-- Columns that fit are those of a series. -/
theorem exists_columns {c : Columns α} (h : c.IsValid) : ∃ s : Series α, s.columns = c := by
  obtain ⟨ts, hts⟩ : ∃ ts : List Instant, c.index = ts.map some := by
    have hpresent := h.present
    generalize c.index = index at hpresent
    induction index with
    | nil => exact ⟨[], rfl⟩
    | cons d index ih =>
      obtain ⟨hd, hindex⟩ := not_or.mp (List.mem_cons.not.mp hpresent)
      obtain ⟨ts, hts⟩ := ih hindex
      obtain ⟨t, rfl⟩ := Option.ne_none_iff_exists'.mp (Ne.symm hd)
      exact ⟨t :: ts, congrArg (some t :: ·) hts⟩
  have hlen : ts.length = c.values.length := by simpa [hts] using h.lengths
  refine ⟨⟨ts.zip c.values⟩, ?_⟩
  rw [columns, index, values, List.map_fst_zip hlen.le, List.map_snd_zip hlen.ge, ← hts]

/-! ## Constructors -/

/-- Columns make a series exactly if it is increasing and has these columns. -/
theorem ofColumns_eq_ok_iff {c : Columns α} {s : Series α} :
    ofColumns c.index c.values = .ok s ↔ s.IsIncreasing ∧ s.columns = c := by
  have hfst (s : Series α) : s.items.map (·.1) = s.columns.index := by
    rw [items, columns, index, List.map_map, List.map_map]
    rfl
  have hsnd (s : Series α) : s.items.map (·.2) = s.columns.values := by
    rw [items, columns, values, List.map_map]
    rfl
  constructor
  · intro h
    have hlen : c.index.length = c.values.length := by
      by_contra hne
      rw [ofColumns, if_pos hne] at h
      cases h
    have hindex : (c.index.zip c.values).map (·.1) = c.index := List.map_fst_zip hlen.le
    have hvalues : (c.index.zip c.values).map (·.2) = c.values := List.map_snd_zip hlen.ge
    have hzip : ofColumns ((c.index.zip c.values).map (·.1)) ((c.index.zip c.values).map (·.2)) =
        .ok s := by rw [hindex, hvalues, h]
    obtain ⟨hinc, hitems⟩ := ofColumns_eq_ok.mp hzip
    refine ⟨hinc, ?_⟩
    calc s.columns = ⟨s.items.map (·.1), s.items.map (·.2)⟩ := by rw [hfst, hsnd]
      _ = c := by rw [← hitems, hindex, hvalues]
  · rintro ⟨hinc, rfl⟩
    rw [← hfst, ← hsnd]
    exact ofColumns_eq_ok.mpr ⟨hinc, rfl⟩

/-- The check of the constructors accepts the columns that fit, and keeps them. -/
theorem checked?_eq (c : Columns α) :
    c.checked? = (ofColumns c.index c.values).toOption.map columns := by
  rw [Columns.checked?]
  cases h : ofColumns c.index c.values with
  | ok s =>
    obtain ⟨hinc, rfl⟩ := ofColumns_eq_ok_iff.mp h
    rw [if_pos (columns_isValid.mpr hinc)]
    rfl
  | error e =>
    rw [if_neg]
    · rfl
    · intro hvalid
      obtain ⟨s, rfl⟩ := exists_columns hvalid
      cases h.symm.trans (ofColumns_eq_ok_iff.mpr ⟨columns_isValid.mp hvalid, rfl⟩)

/-- A series of given values passes the same check as its columns. -/
theorem columns_ofArray (index : List (Option Instant)) (array : NumberArray) :
    (ofArray index array).toOption.map columns = Columns.ofArray? index array := by
  rw [ofArray, Columns.ofArray?, checked?_eq]
  by_cases hshape : array.shape.length = 1
  · rw [if_neg (not_not.mpr hshape), if_pos hshape]
  · rw [if_pos hshape, if_neg hshape]
    rfl

theorem columns_ofItems (items : List (Option Instant × α)) :
    (ofItems items).toOption.map columns = Columns.ofItems? items := by
  rw [Columns.ofItems?, checked?_eq]
  rfl

/-- So does one on a regular index. -/
theorem columns_regular (array : NumberArray) (start : Option Instant) (step : String) :
    (regular array start step).toOption.map columns = Columns.regular? array start step := by
  have hregular : regular array start step = (do
      let count ← array.shape.head?.elim (.error .notList) .ok
      let index ← Columns.regularIndex start step count
      (ofArray (index.map some) array).mapError .series) := by
    simp only [regular, Columns.regularIndex, bind_assoc]
  rw [hregular, Columns.regular?]
  cases array.shape.head? with
  | none => rfl
  | some count =>
    rw [Option.elim_some, ok_bind, Option.bind_eq_bind, Option.bind_some]
    cases Columns.regularIndex start step count with
    | error e => rfl
    | ok index =>
      rw [ok_bind, Except.toOption, Option.bind_eq_bind, Option.bind_some, ← columns_ofArray]
      cases ofArray (index.map some) array <;> rfl

/-! ## Values -/

theorem columns_map (f : α → β) (s : Series α) : (s.map f).columns = s.columns.map f := by
  rw [columns, index_map, values_map]
  rfl

end Series

end ScorePortfolio

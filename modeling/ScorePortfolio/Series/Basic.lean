import ScorePortfolio.Number.Quantity
import ScorePortfolio.Time.Spelling
import ScorePortfolio.Document.Array

/-!
# Time series

A series is a list of points, each a moment with a value.  `Series.IsIncreasing` says that the
moments increase strictly, so that each occurs once; the constructors of this module check it, and
the operations on series keep it.
-/

namespace ScorePortfolio

/-- A list of values at moments. -/
structure Series (α : Type) where
  /-- The points, earliest first. -/
  points : List (Instant × α)
deriving DecidableEq

/-- Why an operation on series has no result. -/
inductive SeriesError where
  /-- The values form no list. -/
  | notOneDimensional (shape : List Nat)
  /-- There are more moments than values, or fewer. -/
  | lengthMismatch (index values : Nat)
  /-- A moment is missing, or not after the one before it. -/
  | notIncreasing
  /-- The latest value of an empty series. -/
  | noLast
  /-- The latest moment of an empty series. -/
  | noLastInstant
  /-- A window without points. -/
  | windowTooSmall (window : Int)
  /-- A window with more points than the series. -/
  | windowTooLong (window : Int) (length : Nat)
  /-- A series divided by the number zero. -/
  | scalarZero
  /-- A series divided by one that is zero at shared moments: how many, and the first of them. -/
  | alignedZeros (count : Nat) (first : Instant)
  /-- A relative change from a value of zero. -/
  | changeFromZero
deriving DecidableEq

namespace SeriesError

/-- Whether a division by zero is the cause. -/
def isDivision : SeriesError → Bool
  | scalarZero | alignedZeros .. | changeFromZero => true
  | _ => false

/-- The message of an error. -/
def message : SeriesError → String
  | notOneDimensional shape =>
    "values must be one-dimensional, got shape " ++ NumberArray.shapeText shape
  | lengthMismatch index values =>
    s!"index ({index}) and values ({values}) must have equal length"
  | notIncreasing => "index must be strictly increasing without duplicates"
  | noLast => "last() called on an empty time series"
  | noLastInstant => "last_timestamp() called on an empty time series"
  | windowTooSmall window => s!"window_size must be >= 1, got {window}"
  | windowTooLong window length => s!"window_size {window} exceeds time series length {length}"
  | scalarZero => "division of time series by scalar zero"
  | alignedZeros count first =>
    s!"division by zero in {count} aligned point(s), first at {first.text}"
  | changeFromZero => "relative change from a zero value"

end SeriesError

namespace Series

variable {α β : Type}

/-- The moments, in order. -/
def index (s : Series α) : List Instant := s.points.map (·.1)

/-- The values, in order. -/
def values (s : Series α) : List α := s.points.map (·.2)

/-- The number of points. -/
def length (s : Series α) : Nat := s.points.length

/-- Whether there are no points. -/
def isEmpty (s : Series α) : Bool := s.points.isEmpty

/-- The series without points. -/
def empty : Series α := ⟨[]⟩

/-- The moments increase strictly. -/
def IsIncreasing (s : Series α) : Prop := s.index.Pairwise (· < ·)

/-- The series with a function applied to each value. -/
def map (f : α → β) (s : Series α) : Series β := ⟨s.points.map fun (t, x) ↦ (t, f x)⟩

@[simp] theorem points_empty : (empty : Series α).points = [] := rfl

@[simp] theorem length_index (s : Series α) : s.index.length = s.length := List.length_map _

@[simp] theorem length_values (s : Series α) : s.values.length = s.length := List.length_map _

@[simp] theorem index_map (f : α → β) (s : Series α) : (s.map f).index = s.index := by
  simp [index, map, Function.comp_def]

@[simp] theorem values_map (f : α → β) (s : Series α) : (s.map f).values = s.values.map f := by
  simp [values, map, Function.comp_def]

/-! ## Construction -/

/-- The moments, if none is missing. -/
def presentIndex? (index : List (Option Instant)) : Option (List Instant) := index.mapM id

/-- Whether each moment is after the one before it. -/
def increasing : List Instant → Bool
  | s :: t :: rest => s < t && increasing (t :: rest)
  | _ => true

/-- The series of given moments and values. -/
def ofColumns (index : List (Option Instant)) (values : List α) : Except SeriesError (Series α) :=
  if index.length ≠ values.length then .error (.lengthMismatch index.length values.length)
  else
    match presentIndex? index with
    | none => .error .notIncreasing
    | some instants =>
      if increasing instants then .ok ⟨instants.zip values⟩ else .error .notIncreasing

/-- The series of given moments and an array of values. -/
def ofArray (index : List (Option Instant)) (array : NumberArray) :
    Except SeriesError (Series Float) :=
  if array.shape.length ≠ 1 then .error (.notOneDimensional array.shape)
  else ofColumns index array.cells

/-- Items in the order of their moments, the ones of equal moments as they came. -/
def sortItems (items : List (Option Instant × α)) : List (Option Instant × α) :=
  items.mergeSort fun a b ↦ Instant.missingLastLE a.1 b.1

/-- The series of items in any order. -/
def ofItems (items : List (Option Instant × α)) : Except SeriesError (Series α) :=
  let sorted := sortItems items
  ofColumns (sorted.map (·.1)) (sorted.map (·.2))

theorem increasing_iff {ts : List Instant} : increasing ts = true ↔ ts.Pairwise (· < ·) := by
  induction ts with
  | nil => simp [increasing]
  | cons s rest ih =>
    cases rest with
    | nil => simp [increasing]
    | cons t rest =>
      rw [increasing, Bool.and_eq_true, ih, decide_eq_true_eq]
      constructor
      · rintro ⟨h, hrest⟩
        refine List.pairwise_cons.2 ⟨fun u hu ↦ ?_, hrest⟩
        rcases List.mem_cons.1 hu with rfl | hu
        · exact h
        · exact Instant.lt_trans h ((List.pairwise_cons.1 hrest).1 u hu)
      · intro h
        exact ⟨(List.pairwise_cons.1 h).1 t List.mem_cons_self, (List.pairwise_cons.1 h).2⟩

/-! ## Look-up -/

/-- The latest point. -/
def lastPoint? (s : Series α) : Option (Instant × α) := s.points.getLast?

/-- The latest value. -/
def last (s : Series α) : Except SeriesError α :=
  match s.lastPoint? with
  | some (_, x) => .ok x
  | none => .error .noLast

/-- The latest moment. -/
def lastInstant (s : Series α) : Except SeriesError Instant :=
  match s.lastPoint? with
  | some (t, _) => .ok t
  | none => .error .noLastInstant

/-- The value at exactly a moment; the missing moment has none. -/
def get? (s : Series α) (t : Option Instant) : Option α :=
  t.bind fun t ↦ s.points.lookup t

end Series

end ScorePortfolio

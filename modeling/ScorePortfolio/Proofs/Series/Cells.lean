import ScorePortfolio.Proofs.Market.Rows
import ScorePortfolio.Proofs.Series.Cut

/-!
# The series of a column

A column is a series if its cells that hold a number are dated by different moments that an index
can hold.  The points are these cells in order.  Leaving out what is after a moment cuts the series
at the moment.
-/

namespace ScorePortfolio

variable {α : Type}

theorem Instant.fit_eq_ok {t u : Instant} : t.fit = .ok u ↔ t.InRange ∧ t = u := by
  by_cases ht : t.InRange <;> simp [fit, ht]

/-- A date fits if it is missing or in range, and is not changed then. -/
theorem Instant.fitOf_eq_ok {d d' : Option Instant} :
    fitOf d = .ok d' ↔ (∀ t, d = some t → t.InRange) ∧ d = d' := by
  cases d with
  | none => simp [fitOf]
  | some t => simp [fitOf, map_eq_ok, fit_eq_ok, and_assoc]

namespace Series

/-! ## Points as items -/

/-- The points with their moments as dates. -/
def items (s : Series α) : List (Option Instant × α) := s.points.map fun (t, x) ↦ (some t, x)

/-- The items are the points, none of which is without a date. -/
theorem mem_items {s : Series α} {d : Option Instant} {x : α} :
    (d, x) ∈ s.items ↔ ∃ t, d = some t ∧ (t, x) ∈ s.points := by
  simp only [items, List.mem_map, Prod.mk.injEq, Prod.exists]
  constructor
  · rintro ⟨t, x, hmem, rfl, rfl⟩
    exact ⟨t, rfl, hmem⟩
  · rintro ⟨t, rfl, hmem⟩
    exact ⟨t, x, hmem, rfl, rfl⟩

/-- No date occurs twice in an increasing series. -/
theorem IsIncreasing.dates_nodup {s : Series α} (h : s.IsIncreasing) :
    (s.items.map (·.1)).Nodup := by
  have hdates : s.items.map (·.1) = s.index.map some := by simp [items, index, Function.comp_def]
  rw [hdates, List.nodup_map_iff fun _ _ ↦ Option.some.inj]
  exact h.imp Instant.ne_of_lt

/-- Leaving out what is after a moment cuts the series there. -/
theorem IsIncreasing.items_upTo {s : Series α} (h : s.IsIncreasing) (t : Instant) :
    (s.upTo (some t)).items = s.items.filter fun item ↦ Instant.notAfter t item.1 := by
  rw [items, items, h.points_upTo, List.filter_map]
  rfl

/-! ## Construction -/

/-- An index without a missing date is one of moments. -/
theorem presentIndex?_eq_some {dates : List (Option Instant)} {index : List Instant} :
    presentIndex? dates = some index ↔ dates = index.map some := by
  rw [presentIndex?]
  induction dates generalizing index with
  | nil => cases index <;> simp
  | cons d dates ih =>
    cases d with
    | none => cases index <;> simp
    | some t => cases index <;> simp [ih, Option.bind_eq_some_iff, and_comm]

/-- Items in order are a series if they are its points. -/
theorem ofColumns_eq_ok {l : List (Option Instant × α)} {s : Series α} :
    ofColumns (l.map (·.1)) (l.map (·.2)) = .ok s ↔ s.IsIncreasing ∧ l = s.items := by
  rw [ofColumns, if_neg (by simp)]
  constructor
  · intro h
    split at h
    · cases h
    next index hindex =>
    split at h
    · next hinc =>
      obtain rfl := Except.ok.inj h
      rw [presentIndex?_eq_some] at hindex
      have hlen : index.length = (l.map (·.2)).length := by
        simpa using (congrArg List.length hindex).symm
      have hzip : l = (index.map some).zip (l.map (·.2)) := by
        rw [← hindex, List.zip_map', List.map_id']
      refine ⟨?_, ?_⟩
      · rw [IsIncreasing, Series.index, List.map_fst_zip hlen.le]
        exact increasing_iff.mp hinc
      · rw [items]
        conv_lhs => rw [hzip, List.zip_map_left]
        rfl
    · cases h
  · rintro ⟨hinc, rfl⟩
    have hindex : presentIndex? (s.items.map (·.1)) = some s.index := by
      rw [presentIndex?_eq_some, items, index, List.map_map, List.map_map]
      rfl
    have hvalues : s.items.map (·.2) = s.values := by
      rw [items, values, List.map_map]
      rfl
    have hpoints : s.index.zip s.values = s.points := by
      rw [index, values, List.zip_map', List.map_id']
    rw [hindex, hvalues]
    simp only [increasing_iff.mpr hinc, if_true, hpoints]

variable {l : List (Option Instant × α)} {s : Series α}

/-- The series of items, if there is one, consists of these in order. -/
theorem ofItems_eq_ok : ofItems l = .ok s ↔ s.IsIncreasing ∧ sortItems l = s.items :=
  ofColumns_eq_ok

/-- Items without a missing date are the points of a series. -/
theorem exists_items (h : none ∉ l.map (·.1)) : ∃ s : Series α, l = s.items := by
  induction l with
  | nil => exact ⟨empty, rfl⟩
  | cons item l ih =>
    obtain ⟨hdate, hrest⟩ := not_or.mp (List.mem_cons.not.mp h)
    obtain ⟨s, rfl⟩ := ih hrest
    obtain ⟨date, x⟩ := item
    obtain ⟨t, rfl⟩ := Option.ne_none_iff_exists'.mp (Ne.symm hdate)
    exact ⟨⟨(t, x) :: s.points⟩, rfl⟩

/-- Items with different dates, none of them missing, are a series. -/
theorem exists_ofItems (hdates : (l.map (·.1)).Nodup) (hpresent : none ∉ l.map (·.1)) :
    ∃ s, ofItems l = .ok s := by
  have hperm : ((sortItems l).map (·.1)).Perm (l.map (·.1)) := (sortItems_perm l).map _
  obtain ⟨s, hs⟩ := exists_items (mt hperm.mem_iff.mp hpresent)
  refine ⟨s, ofItems_eq_ok.mpr ⟨?_, hs⟩⟩
  have hnodup : (s.items.map (·.1)).Nodup := hs ▸ hperm.nodup_iff.mpr hdates
  have hsorted := hs ▸ pairwise_sortItems l
  rw [isIncreasing_iff]
  refine List.Pairwise.imp₂ (fun a b hle hne ↦ ?_) (List.pairwise_map.mp hsorted)
    (List.pairwise_map.mp (List.pairwise_map.mp hnodup))
  exact Instant.lt_of_le_of_ne (of_decide_eq_true hle) fun heq ↦ hne (congrArg some heq)

/-- All dates fit if those that are there are in range, and nothing is changed then. -/
theorem mapM_fitOf_eq_ok {fitted : List (Option Instant × α)} :
    (l.mapM fun (date, x) ↦ ((Instant.fitOf date).map fun date ↦ (date, x)).mapError
      (Sum.inl : OutOfRange → OutOfRange ⊕ SeriesError)) = .ok fitted ↔
      (∀ item ∈ l, ∀ t, item.1 = some t → t.InRange) ∧ l = fitted := by
  refine mapM_eq_ok_of_check fun (date, x) item ↦ ?_
  simp only [mapError_eq_ok, map_eq_ok, Instant.fitOf_eq_ok]
  constructor
  · rintro ⟨_, ⟨hrange, rfl⟩, rfl⟩
    exact ⟨hrange, rfl⟩
  · rintro ⟨hrange, rfl⟩
    exact ⟨date, ⟨hrange, rfl⟩, rfl⟩

variable [Quantity α]

/-- The items that hold a number. -/
def present (l : List (Option Instant × α)) : List (Option Instant × α) :=
  l.filter fun item ↦ !Quantity.isMissing item.2

theorem present_present (l : List (Option Instant × α)) : present (present l) = present l := by
  rw [present, present, List.filter_filter]
  simp only [Bool.and_self]

/-- Only present items count. -/
theorem ofCells_congr {l l' : List (Option Instant × α)} (h : present l = present l') :
    ofCells l = ofCells l' := by
  have h : (l.filter fun (_, x) ↦ !Quantity.isMissing x) =
      l'.filter fun (_, x) ↦ !Quantity.isMissing x := h
  rw [ofCells, ofCells, h]

/-- The series of a column, if there is one, consists of the present items in order. -/
theorem ofCells_eq_ok : ofCells l = .ok s ↔
    s.IsIncreasing ∧ (∀ p ∈ s.points, p.1.InRange) ∧ sortItems (present l) = s.items := by
  have hrange (hsorted : sortItems (present l) = s.items) :
      (∀ item ∈ present l, ∀ t, item.1 = some t → t.InRange) ↔ ∀ p ∈ s.points, p.1.InRange := by
    have hmem (item) : item ∈ present l ↔ item ∈ s.items := by
      rw [← (sortItems_perm _).mem_iff, hsorted]
    simp only [hmem, items, List.forall_mem_map, Option.some.injEq, forall_eq']
  rw [ofCells, bind_eq_ok]
  constructor
  · rintro ⟨fitted, hfit, h⟩
    obtain ⟨hfits, rfl⟩ := mapM_fitOf_eq_ok.mp hfit
    obtain ⟨hinc, hsorted⟩ := ofItems_eq_ok.mp (mapError_eq_ok.mp h)
    exact ⟨hinc, (hrange hsorted).mp hfits, hsorted⟩
  · rintro ⟨hinc, hfits, hsorted⟩
    exact ⟨present l, mapM_fitOf_eq_ok.mpr ⟨(hrange hsorted).mpr hfits, rfl⟩,
      mapError_eq_ok.mpr (ofItems_eq_ok.mpr ⟨hinc, hsorted⟩)⟩

/-- The points that hold a number. -/
def numbers (s : Series α) : Series α := ⟨s.points.filter fun p ↦ !Quantity.isMissing p.2⟩

theorem items_numbers (s : Series α) : s.numbers.items = present s.items := by
  rw [items, numbers, items, present, List.filter_map]
  rfl

/-- Where every value is a number, nothing is left out. -/
theorem numbers_eq_self (h : ∀ p ∈ s.points, Quantity.isMissing p.2 = false) : s.numbers = s := by
  have hpoints : s.numbers.points = s.points :=
    List.filter_eq_self.mpr fun p hp ↦ by rw [h p hp, Bool.not_false]
  exact congrArg Series.mk hpoints

theorem IsIncreasing.numbers (h : s.IsIncreasing) : s.numbers.IsIncreasing :=
  h.sublist (List.filter_sublist.map _)

/-- Of items in order, those that hold numbers are a series as they stand. -/
theorem ofCells_items (hinc : s.IsIncreasing) (hrange : ∀ p ∈ s.points, p.1.InRange) :
    ofCells s.items = .ok s.numbers := by
  have hinc' := hinc.numbers
  refine ofCells_eq_ok.mpr ⟨hinc', fun p hp ↦ hrange p (List.mem_of_mem_filter hp), ?_⟩
  rw [← items_numbers]
  refine sortItems_eq hinc'.dates_nodup (.refl _) ?_
  rw [items, List.pairwise_map]
  exact (List.pairwise_map.mp hinc').imp fun hlt ↦ decide_eq_true (Instant.le_of_lt hlt)

/-- The series of the items up to a moment is the series of all, cut there. -/
theorem ofCells_filter (h : ofCells l = .ok s) (t : Instant) :
    ofCells (l.filter fun item ↦ Instant.notAfter t item.1) = .ok (s.upTo (some t)) := by
  obtain ⟨hinc, hrange, hsorted⟩ := ofCells_eq_ok.mp h
  have hdates : ((present l).map (·.1)).Nodup :=
    (((sortItems_perm (present l)).map (·.1)).nodup_iff).mp (hsorted ▸ hinc.dates_nodup)
  refine ofCells_eq_ok.mpr ⟨hinc.upTo _, fun p hp ↦ hrange p ?_, ?_⟩
  · exact (List.takeWhile_sublist _).mem hp
  · rw [hinc.items_upTo, ← hsorted, ← sortItems_filter hdates, present, present, List.filter_comm]

/-- A column whose dates are different moments that an index can hold is a series. -/
theorem exists_ofCells (hdates : (l.map (·.1)).Nodup)
    (hrange : ∀ d ∈ l.map (·.1), ∃ t, d = some t ∧ t.InRange) : ∃ s, ofCells l = .ok s := by
  have hsub : ((present l).map (·.1)).Sublist (l.map (·.1)) := List.filter_sublist.map _
  have hpresent : none ∉ (present l).map (·.1) := by
    intro hnone
    obtain ⟨t, ht, -⟩ := hrange none (hsub.mem hnone)
    cases ht
  obtain ⟨s, hs⟩ := exists_ofItems (hdates.sublist hsub) hpresent
  obtain ⟨hinc, hsorted⟩ := ofItems_eq_ok.mp hs
  refine ⟨s, ofCells_eq_ok.mpr ⟨hinc, fun p hp ↦ ?_, hsorted⟩⟩
  have hmem : (some p.1, p.2) ∈ present l := by
    rw [← (sortItems_perm _).mem_iff, hsorted]
    exact List.mem_map_of_mem hp
  obtain ⟨t, ht, hrange⟩ := hrange _ (hsub.mem (List.mem_map_of_mem hmem))
  exact Option.some.inj ht ▸ hrange

end Series

end ScorePortfolio

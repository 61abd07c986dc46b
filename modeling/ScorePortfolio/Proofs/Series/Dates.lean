import ScorePortfolio.Proofs.Series.Cells
import ScorePortfolio.Proofs.Series.Steps
import ScorePortfolio.Series.Arithmetic

/-!
# Other dates for series

Dates tell the points of a series apart and put them in order, and serve for nothing else.  So
whatever is done with series can be done after their dates are replaced by others in the same order,
with the same values at the new dates.  A window counts points, so a moving average does not even
ask for the order.
-/

namespace ScorePortfolio

/-! ## Moments -/

/-- The moments of a set and their images fit into an index, and the images are in the same order.
Since no other map keeps the order of all moments of an index than the one that leaves each in its
place, the set holds those that are in use. -/
structure Redates (φ : Instant → Instant) (D : Set Instant) : Prop where
  inRange : ∀ t ∈ D, t.InRange
  image_inRange : ∀ t ∈ D, (φ t).InRange
  lt : ∀ s ∈ D, ∀ t ∈ D, s < t → φ s < φ t

variable {φ : Instant → Instant} {D : Set Instant}

namespace Redates

section Moments

variable {s t : Instant}

/-- The order of two moments can be told from the images. -/
theorem lt_iff (hφ : Redates φ D) (hs : s ∈ D) (ht : t ∈ D) : φ s < φ t ↔ s < t := by
  refine ⟨fun h ↦ ?_, hφ.lt s hs t ht⟩
  rcases Instant.lt_trichotomy s t with hst | rfl | hts
  · exact hst
  · exact absurd h (Instant.lt_irrefl _)
  · exact absurd h (Instant.lt_asymm (hφ.lt t ht s hs hts))

theorem le_iff (hφ : Redates φ D) (hs : s ∈ D) (ht : t ∈ D) : φ s ≤ φ t ↔ s ≤ t := by
  rw [← Instant.not_lt, ← Instant.not_lt, hφ.lt_iff ht hs]

/-- So can their equality. -/
theorem eq_iff (hφ : Redates φ D) (hs : s ∈ D) (ht : t ∈ D) : φ s = φ t ↔ s = t := by
  refine ⟨fun h ↦ ?_, congrArg φ⟩
  rcases Instant.lt_trichotomy s t with hst | rfl | hts
  · exact absurd h (Instant.ne_of_lt (hφ.lt s hs t ht hst))
  · rfl
  · exact absurd h.symm (Instant.ne_of_lt (hφ.lt t ht s hs hts))

end Moments

/-! A missing moment stays missing. -/

section Missing

variable {d d' : Option Instant}

theorem fitOf (hφ : Redates φ D) (hd : ∀ t ∈ d, t ∈ D) : Instant.fitOf d = .ok d :=
  Instant.fitOf_eq_ok.mpr ⟨fun t ht ↦ hφ.inRange t (hd t ht), rfl⟩

/-- Every image fits into an index. -/
theorem fitOf_image (hφ : Redates φ D) (hd : ∀ t ∈ d, t ∈ D) :
    Instant.fitOf (d.map φ) = .ok (d.map φ) := by
  refine Instant.fitOf_eq_ok.mpr ⟨fun t ht ↦ ?_, rfl⟩
  obtain ⟨u, hu, rfl⟩ := Option.map_eq_some_iff.mp ht
  exact hφ.image_inRange u (hd u hu)

/-- Dates are sorted in the same way, the missing ones last. -/
theorem missingLastLE (hφ : Redates φ D) (hd : ∀ t ∈ d, t ∈ D) (hd' : ∀ t ∈ d', t ∈ D) :
    Instant.missingLastLE (d.map φ) (d'.map φ) = Instant.missingLastLE d d' := by
  cases d with
  | none => cases d' <;> rfl
  | some s =>
    cases d' with
    | none => rfl
    | some t => exact decide_eq_decide.mpr (hφ.le_iff (hd s rfl) (hd' t rfl))

end Missing

end Redates

/-! ## Points -/

section Points

variable {β γ : Type} {ps : List (Instant × β)}

theorem takeWhile_congr {p q : β → Bool} {l : List β} (h : ∀ x ∈ l, p x = q x) :
    l.takeWhile p = l.takeWhile q := by
  induction l with
  | nil => rfl
  | cons x l ih =>
    rw [List.forall_mem_cons] at h
    rw [List.takeWhile_cons, List.takeWhile_cons, h.1, ih h.2]

theorem dropWhile_congr {p q : β → Bool} {l : List β} (h : ∀ x ∈ l, p x = q x) :
    l.dropWhile p = l.dropWhile q := by
  induction l with
  | nil => rfl
  | cons x l ih =>
    rw [List.forall_mem_cons] at h
    rw [List.dropWhile_cons, List.dropWhile_cons, h.1, ih h.2]

theorem takeWhile_redate (hφ : Redates φ D) (hps : ∀ p ∈ ps, p.1 ∈ D) {t : Instant} (ht : t ∈ D) :
    (ps.map (Prod.map φ id)).takeWhile (·.1 ≤ φ t) =
      (ps.takeWhile (·.1 ≤ t)).map (Prod.map φ id) := by
  rw [List.takeWhile_map]
  exact congrArg _ (takeWhile_congr fun p hp ↦ decide_eq_decide.mpr (hφ.le_iff (hps p hp) ht))

theorem dropWhile_redate (hφ : Redates φ D) (hps : ∀ p ∈ ps, p.1 ∈ D) {t : Instant} (ht : t ∈ D) :
    (ps.map (Prod.map φ id)).dropWhile (·.1 < φ t) =
      (ps.dropWhile (·.1 < t)).map (Prod.map φ id) := by
  rw [List.dropWhile_map]
  exact congrArg _ (dropWhile_congr fun p hp ↦ decide_eq_decide.mpr (hφ.lt_iff (hps p hp) ht))

/-- A moment is found under its image. -/
theorem lookup_redate (hφ : Redates φ D) (hps : ∀ p ∈ ps, p.1 ∈ D) {t : Instant} (ht : t ∈ D) :
    (ps.map (Prod.map φ id)).lookup (φ t) = ps.lookup t := by
  induction ps with
  | nil => rfl
  | cons p ps ih =>
    obtain ⟨hp, hps⟩ := List.forall_mem_cons.mp hps
    have hkey : (φ t == φ p.1) = (t == p.1) := decide_eq_decide.mpr (hφ.eq_iff ht hp)
    rw [List.map_cons, List.lookup_cons, Prod.map_fst, hkey, ih hps]
    rfl

/-- Shared moments come from the first list. -/
theorem exists_of_mem_sharedPoints {qs : List (Instant × γ)} {r : Instant × β × γ}
    (hr : r ∈ sharedPoints ps qs) : ∃ p ∈ ps, p.1 = r.1 := by
  induction ps generalizing qs with
  | nil => cases hr
  | cons p ps ih =>
    obtain ⟨t, x⟩ := p
    rw [sharedPoints] at hr
    split at hr
    · cases hr
    split at hr
    · rcases List.mem_cons.mp hr with rfl | hr
      · exact ⟨_, List.mem_cons_self, rfl⟩
      · obtain ⟨p, hp, heq⟩ := ih hr
        exact ⟨p, List.mem_cons_of_mem _ hp, heq⟩
    · obtain ⟨p, hp, heq⟩ := ih hr
      exact ⟨p, List.mem_cons_of_mem _ hp, heq⟩

/-- What two lists share, they share under other dates; by induction on the first list, whatever is
left of the second. -/
theorem sharedPoints_redate (hφ : Redates φ D) (hps : ∀ p ∈ ps, p.1 ∈ D)
    {qs : List (Instant × γ)} (hqs : ∀ q ∈ qs, q.1 ∈ D) :
    sharedPoints (ps.map (Prod.map φ id)) (qs.map (Prod.map φ id)) =
      (sharedPoints ps qs).map (Prod.map φ id) := by
  induction ps generalizing qs with
  | nil => rfl
  | cons p ps ih =>
    obtain ⟨t, x⟩ := p
    obtain ⟨ht, hps⟩ := List.forall_mem_cons.mp hps
    rw [List.map_cons, Prod.map_apply, sharedPoints, sharedPoints, dropWhile_redate hφ hqs ht]
    have hrest : ∀ q ∈ qs.dropWhile (·.1 < t), q.1 ∈ D :=
      fun q hq ↦ hqs q ((List.dropWhile_sublist _).mem hq)
    cases hdrop : qs.dropWhile (·.1 < t) with
    | nil => rfl
    | cons q rest =>
      obtain ⟨u, y⟩ := q
      rw [hdrop] at hrest
      obtain ⟨hu, hrest'⟩ := List.forall_mem_cons.mp hrest
      have hqs' := ih hps hrest
      simp only [List.map_cons, Prod.map_apply, id_eq] at hqs' ⊢
      simp only [hφ.eq_iff hu ht, ih hps hrest', hqs']
      split <;> rfl

end Points

/-! ## Items -/

section Items

variable {β : Type}

/-- The items with other dates; a missing one stays missing. -/
def redateItems (φ : Instant → Instant) (l : List (Option Instant × β)) :
    List (Option Instant × β) := l.map (Prod.map (Option.map φ) id)

/-- The dates of the items that have one are in the set. -/
def ItemsDatedIn (l : List (Option Instant × β)) (D : Set Instant) : Prop :=
  ∀ item ∈ l, ∀ t ∈ item.1, t ∈ D

end Items

/-! ## Series -/

/-- The moment that does not fit, as another date. -/
def OutOfRange.redate (φ : Instant → Instant) (e : OutOfRange) : OutOfRange := ⟨φ e.instant⟩

/-- The error with other dates. -/
def SeriesError.redate (φ : Instant → Instant) : SeriesError → SeriesError
  | alignedZeros count first => alignedZeros count (φ first)
  | e => e

namespace Series

variable {α β : Type}

/-- The series with other dates. -/
def redate (φ : Instant → Instant) (s : Series α) : Series α := ⟨s.points.map (Prod.map φ id)⟩

/-- The dates of the series are in the set. -/
def DatedIn (s : Series α) (D : Set Instant) : Prop := ∀ p ∈ s.points, p.1 ∈ D

/-- The first series has its dates in the set, and the second one is the same with other dates. -/
structure Redated (φ : Instant → Instant) (D : Set Instant) (s s' : Series α) : Prop where
  datedIn : s.DatedIn D
  eq : s' = s.redate φ

/-- An operation yields the same series under other dates, or fails for the same reason. -/
abbrev AgreeRedated (φ : Instant → Instant) (D : Set Instant) :
    Except SeriesError (Series α) → Except SeriesError (Series α) → Prop :=
  Agree (fun e e' ↦ e' = e.redate φ) (Redated φ D)

@[simp] theorem index_redate (s : Series α) : (s.redate φ).index = s.index.map φ := by
  simp [index, redate]

@[simp] theorem values_redate (s : Series α) : (s.redate φ).values = s.values := by
  simp [values, redate]

@[simp] theorem length_redate (s : Series α) : (s.redate φ).length = s.length := List.length_map _

theorem redate_map (s : Series α) (f : α → β) : (s.map f).redate φ = (s.redate φ).map f := by
  simp [redate, map, Function.comp_def]

theorem DatedIn.map {s : Series α} (h : s.DatedIn D) (f : α → β) : (s.map f).DatedIn D :=
  List.forall_mem_map.mpr h

/-! ### Look-up -/

theorem lastPoint?_redate (s : Series α) :
    (s.redate φ).lastPoint? = s.lastPoint?.map (Prod.map φ id) := List.getLast?_map

theorem get?_redate (hφ : Redates φ D) {s : Series α} (hs : s.DatedIn D) {t : Instant}
    (ht : t ∈ D) : (s.redate φ).get? (some (φ t)) = s.get? (some t) := lookup_redate hφ hs ht

/-- What there is up to a moment is, with other dates, what there is up to its image. -/
theorem upTo_redate (hφ : Redates φ D) {s : Series α} (hs : s.DatedIn D) {t : Option Instant}
    (ht : ∀ u ∈ t, u ∈ D) : Redated φ D (s.upTo t) ((s.redate φ).upTo (t.map φ)) := by
  cases t with
  | none => exact ⟨hs, rfl⟩
  | some t =>
    exact ⟨fun p hp ↦ hs p ((List.takeWhile_sublist _).mem hp),
      congrArg mk (takeWhile_redate hφ hs (ht t rfl))⟩

/-! ### Construction -/

/-- The new dates have as many gaps as the old ones. -/
theorem presentIndex?_redate (dates : List (Option Instant)) :
    presentIndex? (dates.map (Option.map φ)) = (presentIndex? dates).map (List.map φ) := by
  rw [presentIndex?, presentIndex?]
  induction dates with
  | nil => rfl
  | cons d dates ih =>
    cases d with
    | none => simp
    | some t =>
      simp only [List.map_cons, List.mapM_cons, ih, id_eq, Option.map_some]
      cases dates.mapM id <;> rfl

theorem increasing_redate (hφ : Redates φ D) {ts : List Instant} (hts : ∀ t ∈ ts, t ∈ D) :
    increasing (ts.map φ) = increasing ts := by
  rw [Bool.eq_iff_iff, increasing_iff, increasing_iff, List.pairwise_map]
  exact List.Pairwise.iff_of_mem fun hs ht ↦ hφ.lt_iff (hts _ hs) (hts _ ht)

section Items

variable {l : List (Option Instant × α)}

theorem sortItems_redate (hφ : Redates φ D) (hl : ItemsDatedIn l D) :
    sortItems (redateItems φ l) = redateItems φ (sortItems l) :=
  (List.map_mergeSort (f := Prod.map (Option.map φ) id) fun a ha b hb ↦
    (hφ.missingLastLE (hl a ha) (hl b hb)).symm).symm

/-- Items in the order of their dates are a series, or none for the same reason. -/
theorem ofColumns_agree (hφ : Redates φ D) (hl : ItemsDatedIn l D) :
    AgreeRedated φ D (ofColumns (l.map (·.1)) (l.map (·.2)))
      (ofColumns ((l.map (·.1)).map (Option.map φ)) (l.map (·.2))) := by
  rw [ofColumns, ofColumns, if_neg (by simp), if_neg (by simp), presentIndex?_redate]
  cases hindex : presentIndex? (l.map (·.1)) with
  | none => exact .error rfl
  | some index =>
    have hdates : ∀ t ∈ index, t ∈ D := fun t ht ↦ by
      have hmem : some t ∈ l.map (·.1) :=
        presentIndex?_eq_some.mp hindex ▸ List.mem_map_of_mem ht
      obtain ⟨item, hitem, hdate⟩ := List.mem_map.mp hmem
      exact hl item hitem t hdate
    simp only [Option.map_some, increasing_redate hφ hdates]
    split
    · refine .ok ⟨fun p hp ↦ hdates _ (List.of_mem_zip hp).1, ?_⟩
      rw [redate, ← List.zip_map_left]
    · exact .error rfl

/-- Items make a series with either dates, or fail alike. -/
theorem ofItems_agree (hφ : Redates φ D) (hl : ItemsDatedIn l D) :
    AgreeRedated φ D (ofItems l) (ofItems (redateItems φ l)) := by
  have hsorted : ItemsDatedIn (sortItems l) D :=
    fun item hitem ↦ hl item ((sortItems_perm l).mem_iff.mp hitem)
  have h := ofColumns_agree hφ hsorted
  rw [ofItems, ofItems, sortItems_redate hφ hl]
  simpa [redateItems, List.map_map, Function.comp_def] using h

variable [Quantity α]

/-- Where all dates fit into an index, the items that hold a number are the series. -/
theorem ofCells_of_dates (hl : ∀ item ∈ l, ∀ t ∈ item.1, t.InRange) :
    ofCells l = (ofItems (present l)).mapError .inr := by
  have hfit := (mapM_fitOf_eq_ok (l := present l)).mpr
    ⟨fun item hitem t ht ↦ hl item (List.mem_of_mem_filter hitem) t ht, rfl⟩
  exact congrArg (· >>= fun fitted ↦ (ofItems fitted).mapError .inr) hfit

/-- So do cells, where a date that does not fit is reported as its image. -/
theorem ofCells_agree (hφ : Redates φ D) (hl : ItemsDatedIn l D) :
    Agree (fun e e' ↦ e' = Sum.map (OutOfRange.redate φ) (SeriesError.redate φ) e) (Redated φ D)
      (ofCells l) (ofCells (redateItems φ l)) := by
  have hpresent : present (redateItems φ l) = redateItems φ (present l) := List.filter_map
  have himages : ∀ item ∈ redateItems φ l, ∀ t ∈ item.1, t.InRange := by
    refine List.forall_mem_map.mpr fun item hitem t ht ↦ ?_
    obtain ⟨u, hu, rfl⟩ := Option.map_eq_some_iff.mp ht
    exact hφ.image_inRange u (hl item hitem u hu)
  rw [ofCells_of_dates fun item hitem t ht ↦ hφ.inRange t (hl item hitem t ht),
    ofCells_of_dates himages, hpresent]
  exact (ofItems_agree hφ fun item hitem ↦ hl item (List.mem_of_mem_filter hitem)).mapError
    fun e e' he ↦ congrArg Sum.inr he

end Items

/-! ### Operations -/

/-- Series that share moments share the images. -/
theorem zipWith_redate (hφ : Redates φ D) {a b : Series α} (ha : a.DatedIn D) (hb : b.DatedIn D)
    (f : α → α → α) : Redated φ D (zipWith f a b) (zipWith f (a.redate φ) (b.redate φ)) where
  datedIn := List.forall_mem_map.mpr fun _ hr ↦ by
    obtain ⟨p, hp, heq⟩ := exists_of_mem_sharedPoints hr
    exact heq ▸ ha p hp
  eq := by
    simp only [zipWith, redate, sharedPoints_redate hφ ha hb, List.map_map]
    rfl

section Operations

variable [Quantity α]

/-- Moving averages commute with any replacement of dates: a window counts points. -/
theorem movingAverage_redate (φ : Instant → Instant) (s : Series α) (w : Nat) :
    (s.redate φ).movingAverage w = (s.movingAverage w).redate φ := by
  rw [movingAverage, movingAverage, index_redate, values_redate, ← List.map_drop,
    List.zip_map_left, redate]

/-- A moving average goes by positions, whatever the dates. -/
theorem sma_redate (φ : Instant → Instant) (s : Series α) (w : Int) :
    (s.redate φ).sma w = (s.sma w).map (redate φ) := by
  rw [sma, sma, length_redate, movingAverage_redate]
  split
  · rfl
  split <;> rfl

/-- It is made with either dates, or fails alike. -/
theorem sma_agree {s : Series α} (hs : s.DatedIn D) (w : Int) :
    AgreeRedated φ D (s.sma w) ((s.redate φ).sma w) := by
  rw [sma_redate, sma]
  split
  · exact .error rfl
  split
  · exact .error rfl
  · refine .ok ⟨fun p hp ↦ ?_, rfl⟩
    obtain ⟨q, hq, heq⟩ := List.mem_map.mp (List.mem_of_mem_drop (List.of_mem_zip hp).1)
    exact heq ▸ hs q hq

/-- The same for an operation with a number. -/
theorem withScalar_agree {s : Series α} (hs : s.DatedIn D) (op : Arithmetic) (k : α) :
    AgreeRedated φ D (s.withScalar op k) ((s.redate φ).withScalar op k) := by
  have hmap (f : α → α) : Redated φ D (s.map f) ((s.redate φ).map f) :=
    ⟨hs.map f, (redate_map s f).symm⟩
  cases op with
  | add | sub | mul => exact .ok (hmap _)
  | div =>
    simp only [withScalar, div]
    split
    · exact .error rfl
    · exact .ok (hmap _)

section Pairs

variable {a b : Series α}

/-- Zeros are shared at the images of where they are shared. -/
theorem sharedZeros_redate (hφ : Redates φ D) (ha : a.DatedIn D) (hb : b.DatedIn D) :
    sharedZeros (a.redate φ) (b.redate φ) = (sharedZeros a b).map (Prod.map φ id) := by
  simp only [sharedZeros, align, redate, sharedPoints_redate hφ ha hb, List.filter_map,
    List.map_map]
  rfl

/-- Two series are combined with either dates, or fail alike, with the images of the dates in the
error. -/
theorem withSeries_agree (hφ : Redates φ D) (ha : a.DatedIn D) (hb : b.DatedIn D)
    (op : Arithmetic) :
    AgreeRedated φ D (a.withSeries op b) ((a.redate φ).withSeries op (b.redate φ)) := by
  cases op with
  | add | sub | mul => exact .ok (zipWith_redate hφ ha hb _)
  | div =>
    simp only [withSeries, divSeries, sharedZeros_redate hφ ha hb]
    cases sharedZeros a b with
    | nil => exact .ok (zipWith_redate hφ ha hb _)
    | cons p ps =>
      refine .error ?_
      simp [SeriesError.redate]

end Pairs

end Operations

end Series

end ScorePortfolio

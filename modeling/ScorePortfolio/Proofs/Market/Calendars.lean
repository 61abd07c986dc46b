import ScorePortfolio.Proofs.Market.Changes
import ScorePortfolio.Proofs.Market.Days
import ScorePortfolio.Proofs.Market.Universe
import ScorePortfolio.Proofs.Number.Missing

/-!
# Assets with calendars of their own

All assets of a market share its rows, so an asset has no price in the rows that others need.  The
history of its prices is made of its own prices whatever rows there are besides.  The changes are
not: they lead from row to row, so there is none between two consecutive prices of the asset with a
row of others between them.  Two markets with the same prices of an asset have the same changes of
it exactly if they have rows between the same prices.
-/

namespace ScorePortfolio

/-! ## Dates one after the other -/

namespace Instant

/-- Whether a date is strictly before another; a missing date is after all others. -/
def Before (a b : Option Instant) : Prop := missingLastLE b a = false

instance (a b : Option Instant) : Decidable (Before a b) :=
  inferInstanceAs (Decidable (missingLastLE b a = false))

variable {a b : Option Instant}

theorem Before.asymm (h : Before a b) : ¬ Before b a := by
  intro h'
  have htotal := missingLastLE_total a b
  rw [Before] at h h'
  rw [h, h'] at htotal
  cases htotal

theorem before_of_le_of_ne (hle : missingLastLE a b = true) (hne : a ≠ b) : Before a b :=
  Bool.eq_false_iff.mpr fun hba ↦ hne (missingLastLE_antisymm hle hba)

/-- Of two distinct dates one comes before the other, a missing one last. -/
theorem before_or_before_of_ne (hne : a ≠ b) : Before a b ∨ Before b a := by
  rcases Bool.or_eq_true_iff.mp (missingLastLE_total a b) with h | h
  · exact .inl (before_of_le_of_ne h hne)
  · exact .inr (before_of_le_of_ne h hne.symm)

end Instant

open Instant

namespace Series

variable {α : Type} {l l' : List (Option Instant × α)}

/-- Sorted items of distinct dates stand strictly one before the other. -/
theorem pairwise_before (hnodup : (l.map (·.1)).Nodup) :
    (sortItems l).Pairwise fun a b ↦ Before a.1 b.1 := by
  have hnodup' : ((sortItems l).map (·.1)).Nodup :=
    ((sortItems_perm l).map _).nodup_iff.mpr hnodup
  exact (pairwise_sortItems l).imp₂ (fun _ _ hle hne ↦ before_of_le_of_ne hle hne)
    (List.pairwise_map.mp hnodup')

theorem dates_nodup (h : l.Pairwise fun a b ↦ Before a.1 b.1) : (l.map (·.1)).Nodup := by
  refine List.pairwise_map.mpr (h.imp fun {a b} hab heq ↦ ?_)
  exact hab.asymm (heq ▸ hab)

/-- The changes from each item to the next, at the date of the latter. -/
def changesOf [Quantity α] (items : List (Option Instant × α)) : List (Option Instant × α) :=
  (steps items).map fun ((_, x), (date, y)) ↦ (date, Quantity.change x y)

/-- Items in order are determined by what they are. -/
theorem eq_of_pairwise_before (h : l.Pairwise fun a b ↦ Before a.1 b.1)
    (h' : l'.Pairwise fun a b ↦ Before a.1 b.1) (hmem : ∀ d x, (d, x) ∈ l ↔ (d, x) ∈ l') :
    l = l' := by
  have hnodup {l : List (Option Instant × α)} (h : l.Pairwise fun a b ↦ Before a.1 b.1) : l.Nodup :=
    h.imp fun {a b} hab heq ↦ by
      subst heq
      exact hab.asymm hab
  refine List.Perm.eq_of_pairwise (fun a b _ _ hab hba ↦ absurd hba hab.asymm) h h' ?_
  rw [List.perm_ext_iff_of_nodup (hnodup h) (hnodup h')]
  exact fun (d, x) ↦ hmem d x

end Series

namespace Market

/-! ## The prices of an asset -/

/-- The asset has the price at the date. -/
def HasPrice (m : Market Float) (asset : Asset) (date : Option Instant) (x : Float) : Prop :=
  ∃ label cells, m.labels.lookup asset.symbol = some label ∧ m.prices.cells? label = some cells ∧
    (date, x) ∈ m.prices.dates.zip cells ∧ Quantity.isMissing x = false

/-- The asset has prices at both dates, and none between them. -/
structure Follows (m : Market Float) (asset : Asset) (a b : Option Instant × Float) : Prop where
  first : m.HasPrice asset a.1 a.2
  second : m.HasPrice asset b.1 b.2
  before : Before a.1 b.1
  next : ∀ d x, m.HasPrice asset d x → Before a.1 d → ¬ Before d b.1

/-- Some row lies strictly between two dates. -/
def HasRowBetween (m : Market Float) (a b : Option Instant) : Prop :=
  ∃ d ∈ m.prices.dates, Before a d ∧ Before d b

instance (m : Market Float) (a b : Option Instant) : Decidable (m.HasRowBetween a b) :=
  inferInstanceAs (Decidable (∃ d ∈ m.prices.dates, Before a d ∧ Before d b))

/-- A market with an asset and rows of different dates, in which no further field takes the place of
the prices or of their changes. -/
structure Quotes (m : Market Float) (asset : Asset) : Prop where
  full : m.prices.IsFull
  nodup : m.prices.dates.Nodup
  known : asset.symbol ∈ m.labels.map (·.1)
  close : m.fields.lookup closeField = none
  change : m.fields.lookup changeField = none

/-- The items of an asset: its cells with their dates, in the order of these. -/
structure Lists (m : Market Float) (asset : Asset) (items : List (Option Instant × Float)) :
    Prop where
  close : m.column closeField asset = .ok items
  change : m.column changeField asset = .ok (Series.changesOf items)
  ordered : items.Pairwise fun a b ↦ Before a.1 b.1
  dates : ∀ d, d ∈ m.prices.dates ↔ ∃ x, (d, x) ∈ items
  prices : ∀ d x, m.HasPrice asset d x ↔ (d, x) ∈ items ∧ Quantity.isMissing x = false

variable {m m' : Market Float} {asset : Asset} {a a' b b' : Option Instant × Float}
  {items items' : List (Option Instant × Float)}

/-- A price has one before it at most. -/
theorem Follows.date_eq (h : m.Follows asset a b) (h' : m.Follows asset a' b')
    (hdate : b.1 = b'.1) : a.1 = a'.1 := by
  by_contra hne
  rcases before_or_before_of_ne hne with hbefore | hbefore
  · exact h.next _ _ h'.first hbefore (hdate ▸ h'.before)
  · exact h'.next _ _ h.first hbefore (hdate ▸ h.before)

/-- Which price follows which depends on the prices of the asset alone. -/
theorem Follows.congr (hsame : ∀ d x, m.HasPrice asset d x ↔ m'.HasPrice asset d x) :
    m.Follows asset a b ↔ m'.Follows asset a b := by
  have hfollows {m m' : Market Float} (hsame : ∀ d x, m.HasPrice asset d x ↔ m'.HasPrice asset d x)
      (h : m.Follows asset a b) : m'.Follows asset a b :=
    ⟨(hsame _ _).mp h.first, (hsame _ _).mp h.second, h.before,
      fun d x hx ↦ h.next d x ((hsame d x).mpr hx)⟩
  exact ⟨hfollows hsame, hfollows fun d x ↦ (hsame d x).symm⟩

/-- A quoted asset lists its prices and its changes, each date once. -/
theorem Quotes.exists_items (hm : m.Quotes asset) : ∃ items, m.Lists asset items := by
  obtain ⟨label, hlabel⟩ := Option.isSome_iff_exists.mp (Entries.isSome_lookup.mpr hm.known)
  obtain ⟨cells, hcells⟩ := exists_cells_of_lookup hlabel
  obtain ⟨label', hmem⟩ := Table.mem_columns_of_cells? hcells
  have hitems : m.prices.items? label = some (Series.sortItems (m.prices.dates.zip cells)) := by
    rw [Table.items?, hcells, Option.map_some]
  have hdates : (m.prices.dates.zip cells).map (·.1) = m.prices.dates :=
    List.map_fst_zip (hm.full _ hmem).ge
  have hsorted {d : Option Instant} {x : Float} :
      (d, x) ∈ Series.sortItems (m.prices.dates.zip cells) ↔ (d, x) ∈ m.prices.dates.zip cells :=
    (Series.sortItems_perm _).mem_iff
  refine ⟨_, ⟨?_, ?_, Series.pairwise_before (Table.dates_zip_nodup hm.nodup cells), ?_, ?_⟩⟩
  · refine column_eq_ok.mpr ⟨label, m.prices.items?, hlabel, ?_, hitems⟩
    rw [items?, hm.close]
    rfl
  · refine column_eq_ok.mpr ⟨label, m.prices.changeItems?, hlabel, ?_, ?_⟩
    · rw [items?, hm.change]
      rfl
    · rw [Table.changeItems?, hitems, Option.map_some, Series.changesOf]
  · intro d
    simp only [hsorted]
    conv_lhs => rw [← hdates]
    simp
  · intro d x
    rw [hsorted]
    constructor
    · rintro ⟨label', cells', hlabel', hcells', hx⟩
      obtain rfl := Option.some.inj (hlabel.symm.trans hlabel')
      obtain rfl := Option.some.inj (hcells.symm.trans hcells')
      exact hx
    · exact fun hx ↦ ⟨label, cells, hlabel, hcells, hx⟩

namespace Lists

variable (h : m.Lists asset items)

include h

/-- A change that is a number leads to a price from the one before, with no row between them. -/
theorem mem_changes {d : Option Instant} {x : Float} :
    (d, x) ∈ Series.present (Series.changesOf items) ↔
      ∃ c p q, m.Follows asset (c, p) (d, q) ∧ ¬ m.HasRowBetween c d ∧
        x = Quantity.change p q ∧ Quantity.isMissing x = false := by
  have hsteps {c d : Option Instant} {p q : Float} : ((c, p), (d, q)) ∈ steps items ↔
      (c, p) ∈ items ∧ (d, q) ∈ items ∧ Before c d ∧ ¬ m.HasRowBetween c d := by
    rw [mem_steps_iff h.ordered fun _ _ hab ↦ hab.asymm]
    refine and_congr_right' (and_congr_right' (and_congr_right' ?_))
    simp only [HasRowBetween, h.dates, not_exists, not_and, Prod.forall]
    constructor
    · rintro hnext e ⟨y, hy⟩
      exact hnext e y hy
    · intro hnone e y hy
      exact hnone e ⟨y, hy⟩
  simp only [Series.present, Series.changesOf, List.mem_filter, List.mem_map, Prod.exists,
    Prod.mk.injEq, Bool.not_eq_true']
  constructor
  · rintro ⟨⟨c, p, d, q, hstep, rfl, rfl⟩, hx⟩
    obtain ⟨hp, hq, hbefore, hnone⟩ := hsteps.mp hstep
    obtain ⟨hpresent, hpresent'⟩ := Quantity.not_isMissing_of_change hx
    have hprice {e : Option Instant} {y : Float} (he : m.HasPrice asset e y) :
        e ∈ m.prices.dates := (h.dates e).mpr ⟨y, ((h.prices e y).mp he).1⟩
    refine ⟨c, p, q, ⟨(h.prices c p).mpr ⟨hp, hpresent⟩, (h.prices d q).mpr ⟨hq, hpresent'⟩,
      hbefore, fun e y he hce hed ↦ hnone ⟨e, hprice he, hce, hed⟩⟩, hnone, rfl, hx⟩
  · rintro ⟨c, p, q, hfollows, hnone, rfl, hx⟩
    have hp := ((h.prices c p).mp hfollows.first).1
    have hq := ((h.prices d q).mp hfollows.second).1
    exact ⟨⟨c, p, d, q, hsteps.mpr ⟨hp, hq, hfollows.before, hnone⟩, rfl, rfl⟩, hx⟩

/-- The changes of a list of items stand strictly one before the other. -/
theorem pairwise_changes :
    (Series.present (Series.changesOf items)).Pairwise fun a b ↦ Before a.1 b.1 := by
  have hdates : (Series.changesOf items).map (·.1) = items.tail.map (·.1) := by
    rw [← map_snd_steps, Series.changesOf, List.map_map, List.map_map]
    rfl
  refine List.Pairwise.filter _ (List.pairwise_map.mp ?_)
  rw [hdates]
  exact List.pairwise_map.mpr (h.ordered.sublist (List.tail_sublist items))

/-- Which changes there are is a matter of the rows between consecutive prices. -/
theorem mem_changes_iff {c d : Option Instant} {p q : Float}
    (hfollows : m.Follows asset (c, p) (d, q))
    (hx : Quantity.isMissing (Quantity.change p q) = false) :
    (d, Quantity.change p q) ∈ Series.present (Series.changesOf items) ↔
      ¬ m.HasRowBetween c d := by
  rw [h.mem_changes]
  constructor
  · rintro ⟨c', p', q', hfollows', hnone, -, -⟩
    have hdate := hfollows.date_eq hfollows' rfl
    exact (show c = c' from hdate) ▸ hnone
  · exact fun hnone ↦ ⟨c, p, q, hfollows, hnone, rfl, hx⟩

/-- Where the prices are at moments that an index can hold, the changes are a series. -/
theorem exists_changes (hrange : ∀ d x, m.HasPrice asset d x → ∃ t, d = some t ∧ t.InRange) :
    ∃ s, m.history changeField asset = .ok s ∧
      ∀ item, item ∈ s.items ↔ item ∈ Series.present (Series.changesOf items) := by
  have hdates : ((Series.present (Series.changesOf items)).map (·.1)).Nodup :=
    Series.dates_nodup h.pairwise_changes
  have hfit : ∀ d ∈ (Series.present (Series.changesOf items)).map (·.1),
      ∃ t, d = some t ∧ t.InRange := by
    intro d hd
    obtain ⟨⟨d, x⟩, hmem, rfl⟩ := List.mem_map.mp hd
    obtain ⟨c, p, q, hfollows, -⟩ := h.mem_changes.mp hmem
    exact hrange d q hfollows.second
  obtain ⟨s, hs⟩ := Series.exists_ofCells hdates hfit
  rw [Series.ofCells_congr (Series.present_present _)] at hs
  refine ⟨s, history_eq_ok.mpr ⟨_, h.change, hs⟩, fun item ↦ ?_⟩
  rw [← (Series.ofCells_eq_ok.mp hs).2.2, (Series.sortItems_perm _).mem_iff]

end Lists

/-! ## Answers -/

theorem history_congr {field : String} (h : m.column field asset = .ok items)
    (h' : m'.column field asset = .ok items')
    (hpresent : Series.present items = Series.present items') :
    m.history field asset = m'.history field asset := by
  rw [history_eq, history_eq, h, h', ok_bind, ok_bind, Series.ofCells_congr hpresent]

theorem query_congr {field : String} (hfield : field ≠ "")
    (h : m.history field asset = m'.history field asset) (t : Option Instant) :
    m.query asset t (some field) = m'.query asset t (some field) := by
  rw [query, query, chosenField, chosenField, if_neg hfield, if_neg hfield, h]

/-- As of no moment, the answer is the whole history. -/
theorem query_whole {field : String} (hfield : field ≠ "") {s : Series Float}
    (hs : m.history field asset = .ok s) : m.query asset none (some field) = .ok s :=
  query_eq_ok hfield hs fun _ h ↦ by cases h

/-- Two markets with the same prices of an asset answer alike for its prices.  For its changes they
do if between any two consecutive prices, with a change that is a number, both have a row or none
has; and only then if the prices are at moments that an index can hold. -/
theorem query_of_samePrices (hm : m.Quotes asset) (hm' : m'.Quotes asset)
    (hsame : ∀ d x, m.HasPrice asset d x ↔ m'.HasPrice asset d x) :
    (∀ t, m.query asset t (some closeField) = m'.query asset t (some closeField)) ∧
    ((∀ a b, m.Follows asset a b → Quantity.isMissing (Quantity.change a.2 b.2) = false →
        (m.HasRowBetween a.1 b.1 ↔ m'.HasRowBetween a.1 b.1)) →
      ∀ t, m.query asset t (some changeField) = m'.query asset t (some changeField)) ∧
    ((∀ d x, m.HasPrice asset d x → ∃ t, d = some t ∧ t.InRange) →
      (∀ t, m.query asset t (some changeField) = m'.query asset t (some changeField)) →
      ∀ a b, m.Follows asset a b → Quantity.isMissing (Quantity.change a.2 b.2) = false →
        (m.HasRowBetween a.1 b.1 ↔ m'.HasRowBetween a.1 b.1)) := by
  obtain ⟨items, h⟩ := hm.exists_items
  obtain ⟨items', h'⟩ := hm'.exists_items
  have hfollows {a b} : m.Follows asset a b ↔ m'.Follows asset a b := Follows.congr hsame
  refine ⟨fun t ↦ ?_, fun hrows t ↦ ?_, fun hrange hanswers a b hab hx ↦ ?_⟩
  · refine query_congr (by decide) (history_congr h.close h'.close ?_) t
    refine Series.eq_of_pairwise_before (h.ordered.filter _) (h'.ordered.filter _) fun d x ↦ ?_
    simp only [Series.present, List.mem_filter, Bool.not_eq_true', ← h.prices, ← h'.prices, hsame]
  · refine query_congr (by decide) (history_congr h.change h'.change ?_) t
    refine Series.eq_of_pairwise_before h.pairwise_changes h'.pairwise_changes fun d x ↦ ?_
    rw [h.mem_changes, h'.mem_changes]
    constructor
    · rintro ⟨c, p, q, hab, hnone, rfl, hx⟩
      exact ⟨c, p, q, hfollows.mp hab, mt (hrows _ _ hab hx).mpr hnone, rfl, hx⟩
    · rintro ⟨c, p, q, hab, hnone, rfl, hx⟩
      exact ⟨c, p, q, hfollows.mpr hab, mt (hrows _ _ (hfollows.mpr hab) hx).mp hnone, rfl, hx⟩
  · have hrange' : ∀ d x, m'.HasPrice asset d x → ∃ t, d = some t ∧ t.InRange :=
      fun d x hx ↦ hrange d x ((hsame d x).mpr hx)
    obtain ⟨s, hs, hmem⟩ := h.exists_changes hrange
    obtain ⟨s', hs', hmem'⟩ := h'.exists_changes hrange'
    obtain rfl : s = s' := by
      have hwhole := hanswers none
      rw [query_whole (by decide) hs, query_whole (by decide) hs'] at hwhole
      exact Except.ok.inj hwhole
    rw [← not_iff_not, ← h.mem_changes_iff hab hx, ← h'.mem_changes_iff (hfollows.mp hab) hx,
      ← hmem, ← hmem']

/-! ## Days that others bring -/

section OfDays

variable {days : List Instant} {columns : List (String × List Float)} {symbol : String}
  {cells : List Float}

/-- A market over increasing days quotes each of its columns. -/
theorem ofDays_quotes (hdays : days.Pairwise (· < ·)) (hsymbols : (columns.map (·.1)).Nodup)
    (hlen : ∀ column ∈ columns, column.2.length = days.length)
    (hmem : (symbol, cells) ∈ columns) : (ofDays days columns).Quotes ⟨symbol⟩ where
  full := by
    intro _ hcolumn
    obtain ⟨column, hlisted, rfl⟩ := List.mem_map.mp hcolumn
    exact (hlen column hlisted).trans (List.length_map some).symm
  nodup := Table.IsAscending.nodup ⟨days, rfl, hdays⟩
  known := by
    rw [← Entries.isSome_lookup, lookup_labels_ofDays hsymbols hmem]
    rfl
  close := rfl
  change := rfl

/-- The prices of a column over days are its cells that are a number, each at its day. -/
theorem hasPrice_ofDays (hsymbols : (columns.map (·.1)).Nodup) (hmem : (symbol, cells) ∈ columns)
    {d : Option Instant} {x : Float} : (ofDays days columns).HasPrice ⟨symbol⟩ d x ↔
      (d, x) ∈ (Series.ofDays days cells).numbers.items := by
  have hlabel : (ofDays days columns).labels.lookup symbol = some (.text symbol) :=
    lookup_labels_ofDays hsymbols hmem
  have hcells : (ofDays days columns).prices.cells? (.text symbol) = some cells :=
    cells?_ofDays hsymbols hmem
  rw [Series.items_numbers, Series.present, List.mem_filter, Bool.not_eq_true',
    ← Series.items_ofDays]
  constructor
  · rintro ⟨label', cells', hlabel', hcells', hx⟩
    obtain rfl := Option.some.inj (hlabel.symm.trans hlabel')
    obtain rfl := Option.some.inj (hcells.symm.trans hcells')
    exact hx
  · exact fun hx ↦ ⟨_, cells, hlabel, hcells, hx⟩

end OfDays

/-- Three prices. -/
def threePrices : Series Float := ⟨[(⟨10⟩, 1), (⟨30⟩, 2), (⟨50⟩, 4)]⟩

/-- An asset with these prices alone. -/
def loneMarket : Market Float := .ofDays [⟨10⟩, ⟨30⟩, ⟨50⟩] [("A", [1, 2, 4])]

/-- The asset beside one that is priced on a day between the first two. -/
def sharedMarket : Market Float :=
  .ofDays [⟨10⟩, ⟨20⟩, ⟨30⟩, ⟨50⟩] [("A", [1, 0.0 / 0.0, 2, 4]), ("B", [1, 1, 1, 1])]

/-- The asset beside one that is priced on another day between them, and on a later one. -/
def otherMarket : Market Float :=
  .ofDays [⟨10⟩, ⟨25⟩, ⟨30⟩, ⟨50⟩, ⟨70⟩]
    [("C", [1, 1, 1, 1, 1]), ("A", [1, 0.0 / 0.0, 2, 4, 0.0 / 0.0])]

theorem quotes_threePrices : loneMarket.Quotes ⟨"A"⟩ ∧ sharedMarket.Quotes ⟨"A"⟩ ∧
    otherMarket.Quotes ⟨"A"⟩ := by
  refine ⟨?_, ?_, ?_⟩
  · exact ofDays_quotes (by decide) (by decide) (by simp) List.mem_cons_self
  · exact ofDays_quotes (by decide) (by decide) (by simp) List.mem_cons_self
  · exact ofDays_quotes (by decide) (by decide) (by simp)
      (List.mem_cons_of_mem _ List.mem_cons_self)

theorem hasPrice_threePrices (d : Option Instant) (x : Float) :
    (loneMarket.HasPrice ⟨"A"⟩ d x ↔ (d, x) ∈ threePrices.items) ∧
      (sharedMarket.HasPrice ⟨"A"⟩ d x ↔ (d, x) ∈ threePrices.items) ∧
      (otherMarket.HasPrice ⟨"A"⟩ d x ↔ (d, x) ∈ threePrices.items) := by
  have hlone : (Series.ofDays [⟨10⟩, ⟨30⟩, ⟨50⟩] [1, 2, 4]).numbers = threePrices := by
    decide
  have hshared : (Series.ofDays [⟨10⟩, ⟨20⟩, ⟨30⟩, ⟨50⟩] [1, 0.0 / 0.0, 2, 4]).numbers =
      threePrices := by
    decide
  have hother : (Series.ofDays [⟨10⟩, ⟨25⟩, ⟨30⟩, ⟨50⟩, ⟨70⟩]
      [1, 0.0 / 0.0, 2, 4, 0.0 / 0.0]).numbers = threePrices := by
    decide
  refine ⟨?_, ?_, ?_⟩
  · rw [← hlone]
    exact hasPrice_ofDays (by decide) List.mem_cons_self
  · rw [← hshared]
    exact hasPrice_ofDays (by decide) List.mem_cons_self
  · rw [← hother]
    exact hasPrice_ofDays (by decide) (List.mem_cons_of_mem _ List.mem_cons_self)

/-- The rows of both companions lie between the same two prices, so the changes are the same. -/
theorem sharedMarket_query :
    (∀ t, sharedMarket.query ⟨"A"⟩ t (some closeField) =
      otherMarket.query ⟨"A"⟩ t (some closeField)) ∧
    ∀ t, sharedMarket.query ⟨"A"⟩ t (some changeField) =
      otherMarket.query ⟨"A"⟩ t (some changeField) := by
  obtain ⟨-, hshared, hother⟩ := quotes_threePrices
  have hsame (d : Option Instant) (x : Float) :
      sharedMarket.HasPrice ⟨"A"⟩ d x ↔ otherMarket.HasPrice ⟨"A"⟩ d x :=
    (hasPrice_threePrices d x).2.1.trans (hasPrice_threePrices d x).2.2.symm
  have hrows : ∀ a ∈ threePrices.items, ∀ b ∈ threePrices.items,
      (sharedMarket.HasRowBetween a.1 b.1 ↔ otherMarket.HasRowBetween a.1 b.1) := by
    decide
  obtain ⟨hclose, hchange, -⟩ := query_of_samePrices hshared hother hsame
  refine ⟨hclose, hchange fun a b hab _ ↦ hrows a ?_ b ?_⟩
  · exact (hasPrice_threePrices _ _).2.1.mp hab.first
  · exact (hasPrice_threePrices _ _).2.1.mp hab.second

theorem loneMarket_changes :
    loneMarket.history changeField ⟨"A"⟩ = .ok ⟨[(⟨30⟩, 1), (⟨50⟩, 1)]⟩ := by
  have hholds : loneMarket.Holds (dailyCache [⟨10⟩, ⟨30⟩, ⟨50⟩] [("A", [1, 2, 4])]) :=
    ofDays_holds (by decide) (by decide) (by decide)
  have hkept : ((changeField, "A"), (⟨[(⟨30⟩, 1), (⟨50⟩, 1)]⟩ : Series Float)) ∈
      dailyCache [⟨10⟩, ⟨30⟩, ⟨50⟩] [("A", [1, 2, 4])] := by
    decide +kernel
  exact hholds _ hkept

theorem sharedMarket_changes :
    sharedMarket.history changeField ⟨"A"⟩ = .ok ⟨[(⟨50⟩, 1)]⟩ := by
  have hholds : sharedMarket.Holds (dailyCache [⟨10⟩, ⟨20⟩, ⟨30⟩, ⟨50⟩]
      [("A", [1, 0.0 / 0.0, 2, 4]), ("B", [1, 1, 1, 1])]) :=
    ofDays_holds (by decide) (by decide) (by decide)
  have hkept : ((changeField, "A"), (⟨[(⟨50⟩, 1)]⟩ : Series Float)) ∈
      dailyCache [⟨10⟩, ⟨20⟩, ⟨30⟩, ⟨50⟩]
        [("A", [1, 0.0 / 0.0, 2, 4]), ("B", [1, 1, 1, 1])] := by
    decide +kernel
  exact hholds _ hkept

/-- Alone, the asset has a change that it loses to a row of another between the two prices. -/
theorem exists_change_lost : ¬ ∀ (m m' : Market Float) (asset : Asset),
    m.Quotes asset → m'.Quotes asset →
    (∀ d x, m.HasPrice asset d x ↔ m'.HasPrice asset d x) →
    (∀ d x, m.HasPrice asset d x → x.isFinite = true) →
    ∀ t, m.query asset t (some changeField) = m'.query asset t (some changeField) := by
  intro h
  obtain ⟨hlone, hshared, -⟩ := quotes_threePrices
  have hsame (d : Option Instant) (x : Float) :
      loneMarket.HasPrice ⟨"A"⟩ d x ↔ sharedMarket.HasPrice ⟨"A"⟩ d x :=
    (hasPrice_threePrices d x).1.trans (hasPrice_threePrices d x).2.1.symm
  have hfinite : ∀ item ∈ threePrices.items, item.2.isFinite = true := by decide
  have hanswers := h _ _ _ hlone hshared hsame
    (fun d x hx ↦ hfinite (d, x) ((hasPrice_threePrices d x).1.mp hx)) none
  rw [query_whole (by decide) loneMarket_changes,
    query_whole (by decide) sharedMarket_changes] at hanswers
  have hlength := congrArg Series.length (Except.ok.inj hanswers)
  exact absurd hlength (by decide)

end Market

end ScorePortfolio

import ScorePortfolio.Graph.Build
import ScorePortfolio.Proofs.Traversal
import ScorePortfolio.Proofs.Digraph.Basic
import Mathlib.Data.List.Duplicate

/-!
# Names of calculations

The calculations of a strategy are told apart by the keys of their names.  Naming them succeeds if
there is one, each name is a scalar, and no two names are equal; where all names are texts, a
failure lists the repeated ones in order.
-/

namespace ScorePortfolio

/-! ## Names in order -/

theorem sortNames_nil : sortNames [] = .ok [] := rfl

theorem mapM_isSome_length {α β : Type} {f : α → Option β} {l : List α} {r : List β}
    (h : l.mapM f = some r) : r.length = l.length := by
  induction l generalizing r with
  | nil => simp_all
  | cons a l ih =>
    simp only [List.mapM_cons, Option.bind_eq_bind, Option.bind_eq_some_iff,
      Option.pure_def] at h
    obtain ⟨b, -, bs, hbs, h⟩ := h
    obtain rfl := Option.some.inj h
    simp [ih hbs]

theorem sortByKey_length {κ : Type} {le : κ → κ → Bool} {keys : List κ} {names : List Scalar}
    (h : keys.length = names.length) : (sortByKey le (keys.zip names)).length = names.length := by
  rw [sortByKey, List.length_map, List.length_mergeSort, List.length_zip, h, Nat.min_self]

/-- No name is lost. -/
theorem sortNames_length {names sorted : List Scalar} (h : sortNames names = .ok sorted) :
    sorted.length = names.length := by
  unfold sortNames at h
  split at h
  · rw [Except.ok.inj h]
  · split at h
    · exact Except.ok.inj h ▸ sortByKey_length (mapM_isSome_length ‹_›)
    · exact Except.ok.inj h ▸ sortByKey_length (mapM_isSome_length ‹_›)
    · cases h

theorem sortNames_eq_nil {names : List Scalar} (h : sortNames names = .ok []) : names = [] :=
  List.eq_nil_of_length_eq_zero (sortNames_length h).symm

/-- Sorting names fails in one way only, on names of which some are no text. -/
theorem sortNames_eq_error {names : List Scalar} {e : StrategyError}
    (h : sortNames names = .error e) : e = .unorderedNames := by
  unfold sortNames at h
  split at h
  · cases h
  · split at h
    · cases h
    · cases h
    · exact (Except.error.inj h).symm

theorem mapM_isSome {α β : Type} {g : α → Option β} {l : List α} :
    (l.mapM g).isSome = l.all fun a ↦ (g a).isSome := by
  induction l with
  | nil => rfl
  | cons a l ih =>
    rw [List.mapM_cons, List.all_cons, ← ih]
    cases g a <;> cases l.mapM g <;> rfl

/-- Names have an order if they are all texts or all numbers, or if there is but one. -/
theorem exists_sortNames {names : List Scalar} :
    (∃ sorted, sortNames names = .ok sorted) ↔ names.length ≤ 1 ∨
      (names.all fun a ↦ a.text?.isSome) = true ∨ (names.all fun a ↦ a.units?.isSome) = true := by
  rw [← mapM_isSome, ← mapM_isSome]
  unfold sortNames
  split
  · simp [*]
  · split <;> simp [*]

theorem mapM_text? (texts : List String) :
    (texts.map Scalar.text).mapM Scalar.text? = some texts := by
  induction texts with
  | nil => rfl
  | cons t texts ih => simp [ih, Scalar.text?]

/-- Texts have an order. -/
theorem sortNames_text (texts : List String) :
    sortNames (texts.map .text) = .ok ((texts.mergeSort (· ≤ ·)).map .text) := by
  unfold sortNames
  split
  · next hlen =>
    rw [List.mergeSort_of_pairwise]
    match texts, hlen with
    | [], _ => exact .nil
    | [_], _ => exact List.pairwise_singleton _ _
  · have hzip : texts.zip (texts.map Scalar.text) = texts.map fun t ↦ (t, Scalar.text t) := by
      simpa using List.zip_map' (f := id) (g := Scalar.text) (l := texts)
    rw [mapM_text?]
    simp only [sortByKey, hzip]
    rw [← List.map_mergeSort (r := fun a b : String ↦ decide (a ≤ b)) (by simp)]
    simp [Function.comp_def]

/-- Distinct texts come out in ascending order. -/
theorem mergeSort_texts_lt {texts : List String} (h : texts.Nodup) :
    (texts.mergeSort (· ≤ ·)).Pairwise (· < ·) := by
  have hle : (texts.mergeSort (· ≤ ·)).Pairwise fun a b ↦ decide (a ≤ b) = true :=
    List.pairwise_mergeSort (by simpa using fun a b c ↦ String.le_trans)
      (by simpa using String.le_total) texts
  have hne : (texts.mergeSort (· ≤ ·)).Nodup := (List.mergeSort_perm _ _).nodup_iff.mpr h
  refine hle.imp₂ (fun a b hab hne ↦ ?_) hne
  exact String.not_le.mp fun hba ↦ hne (String.le_antisymm (of_decide_eq_true hab) hba)

/-- Sorted texts do not depend on the order the texts came in. -/
theorem mergeSort_texts_congr {texts texts' : List String} (h : texts.Perm texts') :
    texts.mergeSort (· ≤ ·) = texts'.mergeSort (· ≤ ·) := by
  have hsorted (texts : List String) :
      (texts.mergeSort (· ≤ ·)).Pairwise fun a b ↦ decide (a ≤ b) = true :=
    List.pairwise_mergeSort (by simpa using fun a b c ↦ String.le_trans)
      (by simpa using String.le_total) texts
  refine List.Perm.eq_of_pairwise (fun a b _ _ hab hba ↦ ?_) (hsorted texts) (hsorted texts') ?_
  · exact String.le_antisymm (of_decide_eq_true hab) (of_decide_eq_true hba)
  · exact (List.mergeSort_perm _ _).trans (h.trans (List.mergeSort_perm _ _).symm)

/-! ## Repeated names -/

theorem same_iff {a b : Scalar} : a.same b = true ↔ a.key = b.key := by simp [Scalar.same]

/-- Only a text equals a text. -/
theorem text_same_iff {t : String} {a : Scalar} : (Scalar.text t).same a = true ↔ a = .text t := by
  rw [same_iff, Scalar.key_text]
  cases a with
  | float x =>
    simp only [Scalar.key]
    split <;> simp
  | null | bool _ | int _ => simp [Scalar.key]
  | text u => simp [eq_comm]

/-- Names that are the same name are counted by their keys. -/
theorem countP_same (n : Scalar) (names : List Scalar) :
    names.countP n.same = (names.map Scalar.key).count n.key := by
  rw [List.count, List.countP_map]
  refine List.countP_congr fun m _ ↦ ?_
  rw [same_iff, Function.comp_apply, beq_iff_eq, eq_comm]

theorem countP_same_text (t : String) (texts : List String) :
    (texts.map Scalar.text).countP (Scalar.text t).same = texts.count t := by
  rw [List.count, List.countP_map]
  refine List.countP_congr fun u _ ↦ ?_
  rw [Function.comp_apply, Scalar.same_text, decide_eq_true_eq, beq_iff_eq, eq_comm]

/-- No name is reported as repeated exactly if the keys of the names are distinct. -/
theorem repeatedNames_eq_nil {names : List Scalar} :
    repeatedNames names = [] ↔ (names.map Scalar.key).Nodup := by
  have herase (l : List Scalar) : l.eraseDupsBy Scalar.same = [] ↔ l = [] := by
    cases l <;> simp [List.eraseDupsBy_cons]
  rw [repeatedNames, herase, List.filter_eq_nil_iff, List.nodup_iff_count_le_one]
  simp only [countP_same, decide_eq_true_eq, Nat.not_lt]
  constructor
  · intro h k
    by_cases hk : k ∈ names.map Scalar.key
    · obtain ⟨n, hn, rfl⟩ := List.mem_map.mp hk
      exact h n hn
    · simp [List.count_eq_zero_of_not_mem hk]
  · exact fun h n _ ↦ h n.key

theorem eraseDupsBy_text (texts : List String) :
    (texts.map Scalar.text).eraseDupsBy Scalar.same = texts.eraseDups.map .text := by
  refine Digraph.eraseDupsBy_map (fun t u ↦ ?_) texts
  rw [Scalar.same_text, beq_eq_decide]

/-- Of texts, those that occur more than once are listed in ascending order. -/
theorem sortNames_repeatedNames (texts : List String) :
    ∃ found : List String, sortNames (repeatedNames (texts.map .text)) = .ok (found.map .text) ∧
      found.Pairwise (· < ·) ∧ ∀ t, t ∈ found ↔ List.Duplicate t texts := by
  have hrep : repeatedNames (texts.map Scalar.text) =
      ((texts.filter fun t ↦ 1 < texts.count t).eraseDups).map .text := by
    simp only [repeatedNames, ← eraseDupsBy_text, List.filter_map, Function.comp_def,
      countP_same_text]
  rw [hrep, sortNames_text]
  refine ⟨_, rfl, mergeSort_texts_lt (Digraph.nodup_eraseDups _), fun t ↦ ?_⟩
  rw [List.mem_mergeSort, List.mem_eraseDups, List.mem_filter, decide_eq_true_eq,
    List.duplicate_iff_two_le_count]
  exact ⟨fun h ↦ h.2, fun h ↦ ⟨List.count_pos_iff.mp (Nat.lt_of_lt_of_le Nat.two_pos h), h⟩⟩

/-! ## Naming -/

namespace Strategy

/-- Some calculation has the name. -/
def HasName (s : Strategy) (n : Scalar) : Prop := ∃ c ∈ s.calculations, c.name = .scalar n

/-- All calculations have texts for names. -/
def TextNames (s : Strategy) : Prop := ∀ c ∈ s.calculations, ∃ t, c.name = .text t

/-- A strategy is listed by name exactly if each of its calculations is named by a scalar, and the
list keeps the order of the document. -/
theorem named_eq_ok {s : Strategy} {named : List (Scalar × Calculation)} :
    s.named = .ok named ↔
      s.calculations = named.map (·.2) ∧ ∀ p ∈ named, p.2.name = .scalar p.1 := by
  rw [Strategy.named, mapM_eq_ok]
  constructor
  · intro h
    generalize s.calculations = calcs at h
    induction h with
    | nil => simp
    | @cons c p calcs named hp _ ih =>
      split at hp
      · next name hname =>
        obtain rfl := Except.ok.inj hp
        exact ⟨congrArg (c :: ·) ih.1, List.forall_mem_cons.mpr ⟨hname, ih.2⟩⟩
      · cases hp
  · rintro ⟨heq, hnames⟩
    rw [heq]
    clear heq
    induction named with
    | nil => exact .nil
    | cons p named ih =>
      obtain ⟨hp, hnames⟩ := List.forall_mem_cons.mp hnames
      exact .cons (by simp [hp]) (ih hnames)

/-- Naming succeeds if there is a calculation and the names are distinct scalars. -/
theorem distinctlyNamed_eq_ok {s : Strategy} {named : List (Scalar × Calculation)} :
    s.distinctlyNamed = .ok named ↔
      s.calculations ≠ [] ∧ s.named = .ok named ∧ (named.map (·.1.key)).Nodup := by
  have hkeys (l : List (Scalar × Calculation)) :
      l.map (·.1.key) = (l.map (·.1)).map Scalar.key := by simp
  rw [distinctlyNamed]
  by_cases hcalcs : s.calculations = []
  · simp [hcalcs]
  simp only [List.isEmpty_iff, hcalcs, if_false, hkeys, ← repeatedNames_eq_nil, bind_eq_ok]
  constructor
  · rintro ⟨named', hnamed, found, hfound, h⟩
    match found, h with
    | [], h =>
      obtain rfl := pure_eq_ok.mp h
      exact ⟨hcalcs, hnamed, sortNames_eq_nil hfound⟩
  · rintro ⟨-, hnamed, hrep⟩
    exact ⟨named, hnamed, [], by rw [hrep, sortNames_nil], rfl⟩

/-! ## Texts as names -/

theorem duplicate_map {α β : Type} {f : α → β} (hf : Function.Injective f) {a : α} {l : List α} :
    List.Duplicate (f a) (l.map f) ↔ List.Duplicate a l := by
  induction l with
  | nil => simp [List.not_duplicate_nil]
  | cons b l ih =>
    rw [List.map_cons, List.duplicate_cons_iff, List.duplicate_cons_iff, ih, hf.eq_iff,
      List.mem_map_of_injective hf]

/-- Where all names are texts, the names of the calculations are a list of texts. -/
theorem TextNames.exists_texts {s : Strategy} (hs : s.TextNames) :
    ∃ texts : List String, s.calculations.map (·.name) = texts.map Doc.text := by
  have hs : ∀ c ∈ s.calculations, ∃ t, c.name = .text t := hs
  generalize s.calculations = calcs at hs
  induction calcs with
  | nil => exact ⟨[], rfl⟩
  | cons c calcs ih =>
    obtain ⟨⟨t, ht⟩, hs⟩ := List.forall_mem_cons.mp hs
    obtain ⟨texts, htexts⟩ := ih hs
    exact ⟨t :: texts, by simp [ht, htexts]⟩

/-- Text names are kept as they are. -/
theorem exists_named {s : Strategy} {texts : List String}
    (htexts : s.calculations.map (·.name) = texts.map Doc.text) :
    ∃ named, s.named = .ok named ∧ named.map (·.1) = texts.map Scalar.text := by
  have hok : ∃ named, s.named = .ok named := by
    refine exists_mapM_eq_ok.mpr fun c hc ↦ ?_
    have hname : c.name ∈ texts.map Doc.text := htexts ▸ List.mem_map_of_mem hc
    obtain ⟨t, -, ht⟩ := List.mem_map.mp hname
    exact ⟨(.text t, c), by simp [← ht]⟩
  obtain ⟨named, hnamed⟩ := hok
  refine ⟨named, hnamed, ?_⟩
  obtain ⟨hcalcs, hnames⟩ := named_eq_ok.mp hnamed
  refine List.map_injective_iff.mpr (fun a b h ↦ Doc.scalar.inj h) ?_
  calc (named.map (·.1)).map Doc.scalar = named.map (·.2.name) := by
        rw [List.map_map]
        exact List.map_congr_left fun p hp ↦ (hnames p hp).symm
    _ = texts.map Doc.text := by rw [← htexts, hcalcs, List.map_map]; rfl
    _ = (texts.map Scalar.text).map Doc.scalar := by rw [List.map_map]; rfl

theorem nodup_map_text {texts : List String} : (texts.map Scalar.text).Nodup ↔ texts.Nodup :=
  List.nodup_map_iff fun _ _ h ↦ Scalar.text.inj h

theorem nodup_map_docText {texts : List String} : (texts.map Doc.text).Nodup ↔ texts.Nodup :=
  List.nodup_map_iff fun _ _ h ↦ Scalar.text.inj (Doc.scalar.inj h)

/-- Text names are told apart as they are. -/
theorem nodup_names {s : Strategy} (hs : s.TextNames) {named : List (Scalar × Calculation)}
    (hnamed : s.named = .ok named) :
    (named.map (·.1.key)).Nodup ↔ (s.calculations.map (·.name)).Nodup := by
  obtain ⟨texts, htexts⟩ := hs.exists_texts
  obtain ⟨named', hnamed', hfst⟩ := exists_named htexts
  obtain rfl : named = named' := Except.ok.inj (hnamed.symm.trans hnamed')
  have hkeys : named.map (·.1.key) = texts.map Scalar.text := by
    calc named.map (·.1.key) = (named.map (·.1)).map Scalar.key := by simp
      _ = texts.map Scalar.text := by simp [hfst, Function.comp_def]
  rw [hkeys, htexts, nodup_map_text, nodup_map_docText]

/-- Naming text names fails if there are none, or with those that occur more than once. -/
theorem distinctlyNamed_eq_error {s : Strategy} (hs : s.TextNames) {e : StrategyError}
    (h : s.distinctlyNamed = .error e) :
    s.calculations = [] ∧ e = .invalid s.name .noCalculations ∨
      s.calculations ≠ [] ∧ ∃ found : List String, found ≠ [] ∧
        e = .invalid s.name (.duplicateNames (found.map .text)) ∧ found.Pairwise (· < ·) ∧
        ∀ t, t ∈ found ↔ List.Duplicate (Doc.text t) (s.calculations.map (·.name)) := by
  rw [distinctlyNamed] at h
  by_cases hcalcs : s.calculations = []
  · simp only [hcalcs, List.isEmpty_nil, if_true, throw_bind, throw_eq_error] at h
    exact .inl ⟨hcalcs, h.symm⟩
  obtain ⟨texts, htexts⟩ := hs.exists_texts
  obtain ⟨named, hnamed, hfst⟩ := exists_named htexts
  obtain ⟨found, hfound, hsorted, hmem⟩ := sortNames_repeatedNames texts
  have hinj : Function.Injective Doc.text := fun _ _ h ↦ Scalar.text.inj (Doc.scalar.inj h)
  refine .inr ⟨hcalcs, found, ?_⟩
  simp only [List.isEmpty_iff, hcalcs, if_false, hnamed, ok_bind, hfst, hfound] at h
  cases found with
  | nil => exact absurd h pure_ne_error
  | cons t found =>
    refine ⟨by simp, (throw_eq_error.mp h).symm, hsorted, fun u ↦ ?_⟩
    rw [hmem, htexts, duplicate_map hinj]

end Strategy

end ScorePortfolio

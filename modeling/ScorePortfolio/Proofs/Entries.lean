import ScorePortfolio.Entries
import Mathlib.Data.List.Nodup

/-!
# Entries with distinct keys

Entries whose keys are told apart stay as they are, and each key has its value.
-/

namespace ScorePortfolio.Entries

variable {κ β γ : Type} {same : κ → κ → Bool}

theorem put_new {entries : List (κ × β)} {k : κ} {v : β}
    (h : ∀ e ∈ entries, same e.1 k = false) : put same entries k v = entries ++ [(k, v)] := by
  rw [put, if_neg]
  simpa using h

/-- Entries whose keys all differ are put one after the other. -/
theorem foldl_put {entries list : List (κ × β)}
    (h : (entries ++ list).Pairwise fun a b ↦ same a.1 b.1 = false) :
    list.foldl (fun entries (k, v) ↦ put same entries k v) entries = entries ++ list := by
  induction list generalizing entries with
  | nil => simp
  | cons e list ih =>
    obtain ⟨k, v⟩ := e
    have hnew : ∀ e ∈ entries, same e.1 k = false := fun e he ↦
      (List.pairwise_append.mp h).2.2 e he (k, v) List.mem_cons_self
    simp only [List.foldl_cons, put_new hnew]
    rw [ih (by simpa using h), List.append_assoc, List.singleton_append]

theorem ofList_eq_self {list : List (κ × β)}
    (h : list.Pairwise fun a b ↦ same a.1 b.1 = false) : ofList same list = list :=
  foldl_put h

/-! ## Keys that may repeat -/

section Images

variable {κ' β' : Type} {same' : κ' → κ' → Bool} {h : κ → κ'}
  (hsame : ∀ a b, same' (h a) (h b) = same a b) (f : β → β')

include hsame

/-- A map that keeps apart which keys are the same can be applied before an entry is put, or
after. -/
theorem put_map (entries : List (κ × β)) (k : κ) (v : β) :
    put same' (entries.map (Prod.map h f)) (h k) (f v) =
      (put same entries k v).map (Prod.map h f) := by
  have hany : (entries.map (Prod.map h f)).any (fun e ↦ same' e.1 (h k)) =
      entries.any fun e ↦ same e.1 k := by
    simp only [List.any_map, Function.comp_def, Prod.map_fst, hsame]
  rw [put, put, hany]
  split
  · rw [List.map_map, List.map_map]
    refine List.map_congr_left fun e _ ↦ ?_
    simp only [Function.comp_apply, Prod.map_fst, hsame]
    split <;> rfl
  · rw [List.map_append]
    rfl

/-- Keys that are told apart like their images keep the same places. -/
theorem ofList_map (list : List (κ × β)) :
    ofList same' (list.map (Prod.map h f)) = (ofList same list).map (Prod.map h f) := by
  suffices hfold : ∀ entries : List (κ × β),
      (list.map (Prod.map h f)).foldl (fun entries (k, v) ↦ put same' entries k v)
        (entries.map (Prod.map h f)) =
      (list.foldl (fun entries (k, v) ↦ put same entries k v) entries).map (Prod.map h f) from
    hfold []
  induction list with
  | nil => exact fun _ ↦ rfl
  | cons e list ih =>
    intro entries
    simp only [List.map_cons, List.foldl_cons, Prod.map_fst, Prod.map_snd, put_map hsame f, ih]

end Images

/-- Putting an entry keeps the keys different. -/
theorem pairwise_put {entries : List (κ × β)}
    (h : entries.Pairwise fun a b ↦ same a.1 b.1 = false) (k : κ) (v : β) :
    (put same entries k v).Pairwise fun a b ↦ same a.1 b.1 = false := by
  have hkey (e : κ × β) : (if same e.1 k then (e.1, v) else e).1 = e.1 := by
    split <;> rfl
  rw [put]
  split
  · rw [List.pairwise_map]
    simp only [hkey]
    exact h
  · next hnew =>
    refine List.pairwise_append.mpr ⟨h, List.pairwise_singleton _ _, fun e he e' he' ↦ ?_⟩
    rw [List.mem_singleton.mp he']
    exact Bool.eq_false_iff.mpr fun hsame ↦ hnew (List.any_eq_true.mpr ⟨e, he, hsame⟩)

/-- Whatever keys come in, those that stay are told apart. -/
theorem pairwise_ofList (list : List (κ × β)) :
    (ofList same list).Pairwise fun a b ↦ same a.1 b.1 = false := by
  suffices h : ∀ entries : List (κ × β),
      (entries.Pairwise fun a b ↦ same a.1 b.1 = false) →
        (list.foldl (fun entries (k, v) ↦ put same entries k v) entries).Pairwise
          fun a b ↦ same a.1 b.1 = false from h [] .nil
  induction list with
  | nil => exact fun _ h ↦ h
  | cons e list ih => exact fun entries h ↦ ih _ (pairwise_put h e.1 e.2)

section Repeated

variable [BEq κ] [LawfulBEq κ]

/-- A key that is there keeps its place, a new one comes last. -/
theorem keys_put (entries : List (κ × β)) (k : κ) (v : β) :
    (put (· == ·) entries k v).map (·.1) =
      if k ∈ entries.map (·.1) then entries.map (·.1) else entries.map (·.1) ++ [k] := by
  have hany : entries.any (fun e ↦ e.1 == k) = true ↔ k ∈ entries.map (·.1) := by simp
  rw [put]
  by_cases h : k ∈ entries.map (·.1)
  · rw [if_pos (hany.mpr h), if_pos h, List.map_map]
    refine List.map_congr_left fun e _ ↦ ?_
    simp only [Function.comp_apply]
    split <;> rfl
  · rw [if_neg fun hmem ↦ h (hany.mp hmem), if_neg h, List.map_append]
    rfl

theorem nodup_ofList (list : List (κ × β)) : ((ofList (· == ·) list).map (·.1)).Nodup :=
  List.pairwise_map.mpr ((pairwise_ofList list).imp ne_of_beq_false)

/-- Keys that repeat are left out. -/
theorem keys_ofList_sublist (list : List (κ × β)) :
    ((ofList (· == ·) list).map (·.1)).Sublist (list.map (·.1)) := by
  suffices h : ∀ entries : List (κ × β),
      ((list.foldl (fun entries (k, v) ↦ put (· == ·) entries k v) entries).map (·.1)).Sublist
        (entries.map (·.1) ++ list.map (·.1)) from h []
  induction list with
  | nil => exact fun entries ↦ by simp
  | cons e list ih =>
    intro entries
    have hput : ((put (· == ·) entries e.1 e.2).map (·.1)).Sublist (entries.map (·.1) ++ [e.1]) := by
      rw [keys_put]
      split
      · exact List.sublist_append_left _ _
      · exact .refl _
    have hkeys := (ih _).trans (hput.append_right (list.map (·.1)))
    rwa [List.append_assoc] at hkeys

/-- Every key stays. -/
theorem mem_keys_ofList {list : List (κ × β)} {k : κ} :
    k ∈ (ofList (· == ·) list).map (·.1) ↔ k ∈ list.map (·.1) := by
  suffices h : ∀ entries : List (κ × β),
      k ∈ (list.foldl (fun entries (k, v) ↦ put (· == ·) entries k v) entries).map (·.1) ↔
        k ∈ entries.map (·.1) ∨ k ∈ list.map (·.1) from
    (h []).trans (or_iff_right List.not_mem_nil)
  induction list with
  | nil => simp
  | cons e list ih =>
    intro entries
    have hput : k ∈ (put (· == ·) entries e.1 e.2).map (·.1) ↔
        k ∈ entries.map (·.1) ∨ k = e.1 := by
      rw [keys_put]
      split
      · next hmem => exact ⟨.inl, fun h ↦ h.elim id (· ▸ hmem)⟩
      · simp
    rw [List.foldl_cons, ih, hput, List.map_cons, List.mem_cons, or_assoc]

/-- What is there after an entry was put is that entry, or was there before. -/
theorem mem_of_mem_put {entries : List (κ × β)} {e : κ × β} {k : κ} {v : β}
    (h : e ∈ put (· == ·) entries k v) : e ∈ entries ∨ e = (k, v) := by
  rw [put] at h
  split at h
  · obtain ⟨e', he', rfl⟩ := List.mem_map.mp h
    split
    · next hk => exact .inr (by rw [eq_of_beq hk])
    · exact .inl he'
  · exact (List.mem_append.mp h).imp_right List.mem_singleton.mp

/-- Every entry comes from the list. -/
theorem ofList_subset (list : List (κ × β)) : ofList (· == ·) list ⊆ list := by
  suffices h : ∀ entries : List (κ × β),
      list.foldl (fun entries (k, v) ↦ put (· == ·) entries k v) entries ⊆ entries ++ list from
    h []
  induction list with
  | nil => exact fun entries ↦ List.subset_append_left entries []
  | cons e list ih =>
    intro entries e' he'
    rcases List.mem_append.mp (ih _ he') with hmem | hmem
    · exact (mem_of_mem_put hmem).elim (List.mem_append_left _) fun h ↦
        List.mem_append_right _ (h ▸ List.mem_cons_self)
    · exact List.mem_append_right _ (List.mem_cons_of_mem e hmem)

end Repeated

/-! ## Look-up -/

theorem find?_map {β' : Type} (f : β → β') (k : κ) (entries : List (κ × β)) :
    find? same k (entries.map fun (k, v) ↦ (k, f v)) = (find? same k entries).map f := by
  simp [find?, List.find?_map, Function.comp_def]

/-- A key that is told apart from those before it has its value. -/
theorem find?_of_mem (hself : ∀ k, same k k = true) {entries : List (κ × β)}
    (h : entries.Pairwise fun a b ↦ same a.1 b.1 = false) {k : κ} {v : β}
    (hmem : (k, v) ∈ entries) : find? same k entries = some v := by
  obtain ⟨before, after, rfl⟩ := List.append_of_mem hmem
  have hbefore : before.find? (fun e ↦ same e.1 k) = none := by
    refine List.find?_eq_none.mpr fun e he ↦ ?_
    rw [(List.pairwise_append.mp h).2.2 e he (k, v) List.mem_cons_self]
    exact Bool.false_ne_true
  have hfound : (((k, v) :: after).find? fun e ↦ same e.1 k) = some (k, v) :=
    List.find?_cons_of_pos (hself k)
  rw [find?, List.find?_append, hbefore, Option.none_or, hfound, Option.map_some]

theorem isSome_find? (k : κ) (entries : List (κ × β)) :
    (find? same k entries).isSome = (entries.map (·.1)).any (same · k) := by
  rw [Bool.eq_iff_iff, find?, Option.isSome_map, List.find?_isSome]
  simp

/-- Where keys are told apart like their images, a key has the image of its value. -/
theorem lookup_map_keys {κ' β' : Type} [BEq κ] [BEq κ'] {h : κ → κ'}
    (hkey : ∀ a b, (h a == h b) = (a == b)) (f : β → β') (k : κ) (entries : List (κ × β)) :
    (entries.map (Prod.map h f)).lookup (h k) = (entries.lookup k).map f := by
  induction entries with
  | nil => rfl
  | cons e entries ih =>
    obtain ⟨k', v⟩ := e
    rw [List.map_cons, Prod.map_apply, List.lookup_cons, List.lookup_cons, hkey]
    cases k == k' with
    | true => rfl
    | false => exact ih

theorem lookup_map [BEq κ] {β' : Type} (f : β → β') (k : κ) (entries : List (κ × β)) :
    (entries.map fun (k, v) ↦ (k, f v)).lookup k = (entries.lookup k).map f :=
  lookup_map_keys (h := id) (fun _ _ ↦ rfl) f k entries

/-- A key that is among the entries is found. -/
theorem isSome_lookup [BEq κ] [LawfulBEq κ] {k : κ} {entries : List (κ × β)} :
    (entries.lookup k).isSome = true ↔ k ∈ entries.map (·.1) := by
  induction entries with
  | nil => simp
  | cons e entries ih =>
    obtain ⟨k', v⟩ := e
    rw [List.map_cons, List.mem_cons, ← ih, List.lookup_cons]
    by_cases hk : k = k'
    · simp [hk]
    · simp [hk, beq_eq_false_iff_ne.mpr hk]

theorem lookup_eq_none [BEq κ] [LawfulBEq κ] {k : κ} {entries : List (κ × β)} :
    entries.lookup k = none ↔ k ∉ entries.map (·.1) := by
  rw [← isSome_lookup, Bool.not_eq_true, Option.isSome_eq_false_iff, Option.isNone_iff_eq_none]

theorem mem_of_lookup [BEq κ] [LawfulBEq κ] {k : κ} {v : β} {entries : List (κ × β)}
    (h : entries.lookup k = some v) : (k, v) ∈ entries := by
  obtain ⟨before, after, rfl, -⟩ := List.lookup_eq_some_iff.mp h
  exact List.mem_append_right before List.mem_cons_self

/-- If no key occurs twice, the entry of a key is the one found. -/
theorem lookup_of_mem [BEq κ] [LawfulBEq κ] {k : κ} {v : β} {entries : List (κ × β)}
    (h : (entries.map (·.1)).Nodup) (hmem : (k, v) ∈ entries) : entries.lookup k = some v := by
  obtain ⟨before, after, rfl⟩ := List.append_of_mem hmem
  rw [List.map_append, List.nodup_append] at h
  refine List.lookup_eq_some_iff.mpr ⟨before, after, rfl, fun e he ↦ ?_⟩
  have hne : e.1 ≠ k := h.2.2 _ (List.mem_map_of_mem he) _ List.mem_cons_self
  simpa using hne.symm

section Keys

variable {key : κ → γ} (hsame : ∀ a b, same a b = true ↔ key a = key b) {entries : List (κ × β)}

include hsame

theorem pairwise_of_nodup (h : (entries.map (key ·.1)).Nodup) :
    entries.Pairwise fun a b ↦ same a.1 b.1 = false :=
  (List.pairwise_map.mp h).imp fun hne ↦ Bool.eq_false_iff.mpr fun heq ↦ hne ((hsame _ _).mp heq)

/-- If no two keys are the same, a key is found with the value of the one that is the same. -/
theorem find?_eq_some (h : (entries.map (key ·.1)).Nodup) {k : κ} {v : β} :
    find? same k entries = some v ↔ ∃ k', key k' = key k ∧ (k', v) ∈ entries := by
  rw [find?, Option.map_eq_some_iff]
  constructor
  · rintro ⟨⟨k', _⟩, hfind, rfl⟩
    have hkey : key k' = key k := (hsame _ _).mp (by simpa using List.find?_some hfind)
    exact ⟨k', hkey, List.mem_of_find?_eq_some hfind⟩
  · rintro ⟨k', hk, hmem⟩
    have hex : ∃ e ∈ entries, same e.1 k = true := ⟨_, hmem, (hsame _ _).mpr hk⟩
    obtain ⟨e, he⟩ := Option.isSome_iff_exists.mp (List.find?_isSome.mpr hex)
    have hkey : key e.1 = key k := (hsame _ _).mp (by simpa using List.find?_some he)
    have heq := List.inj_on_of_nodup_map h (List.mem_of_find?_eq_some he) hmem (hkey.trans hk.symm)
    exact ⟨e, he, heq ▸ rfl⟩

end Keys

end ScorePortfolio.Entries

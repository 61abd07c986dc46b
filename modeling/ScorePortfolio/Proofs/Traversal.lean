import Mathlib.Data.List.Forall2

/-!
# Computations that can fail

What it takes for a sequence of steps, or for a step on each item of a list, to succeed, and which
failure comes out otherwise.
-/

namespace ScorePortfolio

variable {ε ε' α β : Type}

theorem bind_eq_ok {x : Except ε α} {f : α → Except ε β} {b : β} :
    x >>= f = .ok b ↔ ∃ a, x = .ok a ∧ f a = .ok b := by
  cases x <;> simp [bind, Except.bind]

theorem bind_eq_error {x : Except ε α} {f : α → Except ε β} {e : ε} :
    x >>= f = .error e ↔ x = .error e ∨ ∃ a, x = .ok a ∧ f a = .error e := by
  cases x <;> simp [bind, Except.bind]

theorem map_eq_ok {x : Except ε α} {f : α → β} {b : β} :
    x.map f = .ok b ↔ ∃ a, x = .ok a ∧ f a = b := by
  cases x <;> simp [Except.map]

theorem map_eq_error {x : Except ε α} {f : α → β} {e : ε} : x.map f = .error e ↔ x = .error e := by
  cases x <;> simp [Except.map]

theorem exists_eq_ok_iff {x : Except ε α} : (∃ a, x = .ok a) ↔ ∀ e, x ≠ .error e := by
  cases x <;> simp

@[simp] theorem pure_eq_ok {a b : α} : (pure a : Except ε α) = .ok b ↔ a = b := by
  simp [pure, Except.pure]

@[simp] theorem pure_ne_error {a : α} {e : ε} : (pure a : Except ε α) ≠ .error e := by
  simp [pure, Except.pure]

@[simp] theorem throw_ne_ok {e : ε} {b : α} : (throw e : Except ε α) ≠ .ok b := nofun

@[simp] theorem throw_eq_error {e e' : ε} : (throw e : Except ε α) = .error e' ↔ e = e' :=
  ⟨Except.error.inj, congrArg Except.error⟩

@[simp] theorem ok_bind {a : α} {f : α → Except ε β} : (.ok a >>= f) = f a := rfl

@[simp] theorem throw_bind {e : ε} {f : α → Except ε β} : (throw e >>= f) = throw e := rfl

@[simp] theorem mapError_eq_ok {x : Except ε α} {f : ε → ε'} {a : α} :
    x.mapError f = .ok a ↔ x = .ok a := by
  cases x <;> simp [Except.mapError]

@[simp] theorem mapError_eq_error {x : Except ε α} {f : ε → ε'} {e : ε'} :
    x.mapError f = .error e ↔ ∃ e', x = .error e' ∧ f e' = e := by
  cases x <;> simp [Except.mapError]

theorem mapError_bind {x : Except ε α} {f : α → Except ε β} {h : ε → ε'} :
    (x >>= f).mapError h = x.mapError h >>= fun a ↦ (f a).mapError h := by
  cases x <;> rfl

section Keyed

variable {κ : Type} {x : Except ε α} {f : ε → ε'} {k : κ}

theorem keyed_eq_ok {p : κ × α} :
    (x.map fun a ↦ (k, a)).mapError f = .ok p ↔ p.1 = k ∧ x = .ok p.2 := by
  rw [mapError_eq_ok, map_eq_ok]
  constructor
  · rintro ⟨a, ha, rfl⟩
    exact ⟨rfl, ha⟩
  · rintro ⟨rfl, ha⟩
    exact ⟨p.2, ha, rfl⟩

theorem keyed_eq_error {e : ε'} :
    (x.map fun a ↦ (k, a)).mapError f = .error e ↔ ∃ e', x = .error e' ∧ f e' = e := by
  cases x <;> simp [Except.map, Except.mapError]

theorem exists_keyed_eq_ok :
    (∃ p, (x.map fun a ↦ (k, a)).mapError f = .ok p) ↔ ∃ a, x = .ok a := by
  cases x <;> simp [Except.map, Except.mapError]

end Keyed

/-- A traversal succeeds with the results of its steps. -/
theorem mapM_eq_ok {f : α → Except ε β} {l : List α} {r : List β} :
    l.mapM f = .ok r ↔ List.Forall₂ (fun a b ↦ f a = .ok b) l r := by
  induction l generalizing r with
  | nil => rw [List.mapM_nil, pure_eq_ok, List.forall₂_nil_left_iff, eq_comm]
  | cons a l ih =>
    rw [List.mapM_cons, bind_eq_ok]
    constructor
    · rintro ⟨b, hb, h⟩
      obtain ⟨bs, hbs, h⟩ := bind_eq_ok.mp h
      obtain rfl := pure_eq_ok.mp h
      exact .cons hb (ih.mp hbs)
    · rintro (_ | ⟨hb, hbs⟩)
      exact ⟨_, hb, bind_eq_ok.mpr ⟨_, ih.mpr hbs, rfl⟩⟩

/-- The results of a traversal are those of its items. -/
theorem mem_of_mapM_eq_ok {f : α → Except ε β} {l : List α} {r : List β} (h : l.mapM f = .ok r)
    {b : β} : b ∈ r ↔ ∃ a ∈ l, f a = .ok b := by
  rw [mapM_eq_ok] at h
  induction h with
  | nil => simp
  | @cons a b' l r hb _ ih =>
    rw [List.mem_cons, ih, List.exists_mem_cons_iff, hb, Except.ok.injEq, eq_comm]

/-- A traversal that turns each item into another or fails succeeds with the others. -/
theorem mapM_eq_ok_of_step {f : α → Except ε β} {p : α → Prop} {g : α → β}
    (h : ∀ a b, f a = .ok b ↔ p a ∧ g a = b) {l : List α} {r : List β} :
    l.mapM f = .ok r ↔ (∀ a ∈ l, p a) ∧ l.map g = r := by
  simp only [mapM_eq_ok, h, List.forall₂_and_left]
  rw [← List.forall₂_eq_eq_eq, List.forall₂_map_left_iff]

/-- A traversal that lets each item pass or fails succeeds with the items. -/
theorem mapM_eq_ok_of_check {f : α → Except ε α} {p : α → Prop}
    (h : ∀ a b, f a = .ok b ↔ p a ∧ a = b) {l r : List α} :
    l.mapM f = .ok r ↔ (∀ a ∈ l, p a) ∧ l = r := by
  rw [mapM_eq_ok_of_step (g := id) h, List.map_id]

/-- Two traversals that agree on every item agree. -/
theorem mapM_congr {f g : α → Except ε β} {l : List α} (h : ∀ a ∈ l, f a = g a) :
    l.mapM f = l.mapM g := by
  induction l with
  | nil => rfl
  | cons a l ih =>
    rw [List.forall_mem_cons] at h
    rw [List.mapM_cons, List.mapM_cons, h.1, ih h.2]

/-- Steps that succeed one way and so the other lead through the whole list. -/
theorem foldlM_eq_ok_of_imp {f g : β → α → Except ε β} {l : List α} {b b' : β}
    (h : ∀ a ∈ l, ∀ b b', f b a = .ok b' → g b a = .ok b') (hb : l.foldlM f b = .ok b') :
    l.foldlM g b = .ok b' := by
  induction l generalizing b with
  | nil => exact hb
  | cons a l ih =>
    rw [List.foldlM_cons] at hb ⊢
    obtain ⟨c, hc, hb⟩ := bind_eq_ok.mp hb
    exact bind_eq_ok.mpr ⟨c, h a List.mem_cons_self _ _ hc,
      ih (fun x hx ↦ h x (List.mem_cons_of_mem _ hx)) hb⟩

/-- A traversal succeeds if each step does. -/
theorem exists_mapM_eq_ok {f : α → Except ε β} {l : List α} :
    (∃ r, l.mapM f = .ok r) ↔ ∀ a ∈ l, ∃ b, f a = .ok b := by
  induction l with
  | nil => simp
  | cons a l ih =>
    simp only [mapM_eq_ok, List.forall₂_cons_left_iff, List.forall_mem_cons] at ih ⊢
    rw [← ih]
    constructor
    · rintro ⟨_, b, bs, hb, hbs, rfl⟩
      exact ⟨⟨b, hb⟩, bs, hbs⟩
    · rintro ⟨⟨b, hb⟩, bs, hbs⟩
      exact ⟨b :: bs, b, bs, hb, hbs, rfl⟩

/-- Items that are left out leave out their results. -/
theorem mapM_sublist {f : α → Except ε β} {l l' : List α} {r : List β} (hl : l'.Sublist l)
    (h : l.mapM f = .ok r) : ∃ r', l'.mapM f = .ok r' ∧ r'.Sublist r := by
  simp only [mapM_eq_ok] at h ⊢
  induction hl generalizing r with
  | slnil => exact ⟨r, h, .refl r⟩
  | cons a _ ih =>
    cases h with
    | cons _ h =>
      obtain ⟨r', hr', hsub⟩ := ih h
      exact ⟨r', hr', hsub.cons _⟩
  | cons_cons a _ ih =>
    cases h with
    | cons hb h =>
      obtain ⟨r', hr', hsub⟩ := ih h
      exact ⟨_, .cons hb hr', hsub.cons_cons _⟩

/-- A traversal fails as the first of its steps to fail. -/
theorem mapM_eq_error {f : α → Except ε β} {l : List α} {e : ε} (h : l.mapM f = .error e) :
    ∃ done a rest, l = done ++ a :: rest ∧ (∀ x ∈ done, ∃ b, f x = .ok b) ∧ f a = .error e := by
  induction l with
  | nil => exact absurd h pure_ne_error
  | cons a l ih =>
    rw [List.mapM_cons, bind_eq_error] at h
    rcases h with h | ⟨b, hb, h⟩
    · exact ⟨[], a, l, rfl, by simp, h⟩
    · rcases bind_eq_error.mp h with h | ⟨bs, -, h⟩
      · obtain ⟨done, x, rest, rfl, hdone, hx⟩ := ih h
        exact ⟨a :: done, x, rest, rfl, List.forall_mem_cons.mpr ⟨⟨b, hb⟩, hdone⟩, hx⟩
      · exact absurd h pure_ne_error

/-- A traversal fails with the first item that fails. -/
theorem mapM_eq_error_iff {f : α → Except ε β} {l : List α} {e : ε} :
    l.mapM f = .error e ↔ ∃ done a rest, l = done ++ a :: rest ∧
      (∀ x ∈ done, ∃ b, f x = .ok b) ∧ f a = .error e := by
  refine ⟨mapM_eq_error, ?_⟩
  rintro ⟨done, a, rest, rfl, hdone, ha⟩
  obtain ⟨r, hr⟩ := exists_mapM_eq_ok.mpr hdone
  rw [List.mapM_append, hr, List.mapM_cons, ha]
  rfl

/-- A traversal of lists, each traversed in its turn, is one traversal of all their items. -/
theorem mapM_flatMap {γ : Type} {f : β → Except ε γ} {g : α → List β} {l : List α} :
    (l.flatMap g).mapM f = (l.mapM fun a ↦ (g a).mapM f).map List.flatten := by
  induction l with
  | nil => rfl
  | cons a l ih =>
    rw [List.flatMap_cons, List.mapM_append, List.mapM_cons, ih]
    cases (g a).mapM f with
    | error e => rfl
    | ok bs => cases l.mapM fun a ↦ (g a).mapM f <;> rfl

/-! ## Two computations -/

/-- Two computations both succeed, with related results, or both fail, with related errors. -/
inductive Agree {ε ε' α α' : Type} (E : ε → ε' → Prop) (R : α → α' → Prop) :
    Except ε α → Except ε' α' → Prop where
  | ok {a a'} : R a a' → Agree E R (.ok a) (.ok a')
  | error {e e'} : E e e' → Agree E R (.error e) (.error e')

/-- Computations agree if one succeeds exactly when the other does, and results and errors are
related. -/
theorem agree_of_exists {ε ε' α α' : Type} {E : ε → ε' → Prop} {R : α → α' → Prop}
    {x : Except ε α} {y : Except ε' α'} (hiff : (∃ a, x = .ok a) ↔ ∃ b, y = .ok b)
    (hok : ∀ a b, x = .ok a → y = .ok b → R a b)
    (herror : ∀ e e', x = .error e → y = .error e' → E e e') : Agree E R x y := by
  cases hx : x with
  | ok a =>
    obtain ⟨b, hb⟩ := hiff.mp ⟨a, hx⟩
    exact hb ▸ .ok (hok a b hx hb)
  | error e =>
    cases hy : y with
    | ok b =>
      obtain ⟨a, ha⟩ := hiff.mpr ⟨b, hy⟩
      cases hx.symm.trans ha
    | error e' => exact .error (herror e e' hx hy)

namespace Agree

variable {α' β' : Type} {E : ε → ε' → Prop} {R : α → α' → Prop} {S : β → β' → Prop}
  {x : Except ε α} {y : Except ε' α'}

/-- What agrees first and then goes on in agreement agrees. -/
theorem bind {f : α → Except ε β} {g : α' → Except ε' β'} (h : Agree E R x y)
    (hfg : ∀ a b, x = .ok a → R a b → Agree E S (f a) (g b)) : Agree E S (x >>= f) (y >>= g) := by
  cases h with
  | ok hab => exact hfg _ _ rfl hab
  | error he => exact .error he

/-- Where one of two agreeing computations succeeds, the other does, with a related result. -/
theorem exists_eq_ok (h : Agree E R x y) {a : α} (hx : x = .ok a) : ∃ b, y = .ok b ∧ R a b := by
  subst hx
  cases h with
  | ok hab => exact ⟨_, rfl, hab⟩

/-- What agrees in one way agrees in every way that follows from it. -/
theorem imp {R' : α → α' → Prop} (h : Agree E R x y) (hR : ∀ a b, x = .ok a → R a b → R' a b) :
    Agree E R' x y := by
  cases h with
  | ok hab => exact .ok (hR _ _ rfl hab)
  | error he => exact .error he

/-- Agreement is kept by functions that keep the relation of results. -/
theorem map {f : α → β} {g : α' → β'} (h : Agree E R x y) (hfg : ∀ a b, R a b → S (f a) (g b)) :
    Agree E S (x.map f) (y.map g) := by
  cases h with
  | ok hab => exact .ok (hfg _ _ hab)
  | error he => exact .error he

/-- It is kept by functions that keep the relation of errors. -/
theorem mapError {δ δ' : Type} {E' : δ → δ' → Prop} {f : ε → δ} {g : ε' → δ'} (h : Agree E R x y)
    (hfg : ∀ e e', E e e' → E' (f e) (g e')) : Agree E' R (x.mapError f) (y.mapError g) := by
  cases h with
  | ok hab => exact .ok hab
  | error he => exact .error (hfg _ _ he)

/-- Traversals of a list and of its image agree if the steps do. -/
theorem mapM {k : α → α'} {h : β → β'} {f : α → Except ε β} {g : α' → Except ε' β'} {l : List α}
    (hstep : ∀ a ∈ l, Agree E (fun b b' ↦ b' = h b) (f a) (g (k a))) :
    Agree E (fun r r' ↦ r' = r.map h) (l.mapM f) ((l.map k).mapM g) := by
  induction l with
  | nil => exact .ok rfl
  | cons a l ih =>
    obtain ⟨ha, hl⟩ := List.forall_mem_cons.mp hstep
    rw [List.map_cons, List.mapM_cons, List.mapM_cons]
    refine ha.bind fun b b' _ hb ↦ (ih hl).bind fun r r' _ hr ↦ .ok ?_
    rw [hb, hr, List.map_cons]

theorem mapM_self {h : β → β'} {f : α → Except ε β} {g : α → Except ε' β'} {l : List α}
    (hstep : ∀ a ∈ l, Agree E (fun b b' ↦ b' = h b) (f a) (g a)) :
    Agree E (fun r r' ↦ r' = r.map h) (l.mapM f) (l.mapM g) := by
  have hid := mapM (k := id) hstep
  rwa [List.map_id] at hid

/-- Folds of a list agree if the steps do. -/
theorem foldlM {f : β → α → Except ε β} {g : β → α → Except ε' β} {l : List α}
    (hstep : ∀ b, ∀ a ∈ l, Agree E Eq (f b a) (g b a)) (b : β) :
    Agree E Eq (l.foldlM f b) (l.foldlM g b) := by
  induction l generalizing b with
  | nil => exact .ok rfl
  | cons a l ih =>
    rw [List.foldlM_cons, List.foldlM_cons]
    refine (hstep b a List.mem_cons_self).bind fun b b' _ hb ↦ hb ▸ ih (fun b a ha ↦ ?_) b
    exact hstep b a (List.mem_cons_of_mem _ ha)

end Agree

end ScorePortfolio

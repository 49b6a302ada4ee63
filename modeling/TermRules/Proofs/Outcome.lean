import Mathlib.Data.List.Forall2

/-!
# Outcomes

What it means for a computation that may fail to succeed, when it is put together from others.
-/

namespace TermRules

variable {ε α β : Type}

theorem bind_eq_ok {x : Except ε α} {f : α → Except ε β} {b : β} :
    (x >>= f) = .ok b ↔ ∃ a, x = .ok a ∧ f a = .ok b := by
  constructor
  · intro h
    cases x with
    | error e => cases h
    | ok a => exact ⟨a, rfl, h⟩
  · rintro ⟨a, rfl, h⟩
    exact h

theorem bind_eq_error {x : Except ε α} {f : α → Except ε β} {e : ε} :
    (x >>= f) = .error e ↔ x = .error e ∨ ∃ a, x = .ok a ∧ f a = .error e := by
  constructor
  · intro h
    cases x with
    | error d =>
      cases h
      exact .inl rfl
    | ok a => exact .inr ⟨a, rfl, h⟩
  · rintro (rfl | ⟨a, rfl, h⟩)
    · rfl
    · exact h

theorem map_eq_ok {x : Except ε α} {f : α → β} {b : β} :
    x.map f = .ok b ↔ ∃ a, x = .ok a ∧ f a = b := by
  constructor
  · intro h
    cases x with
    | error e => cases h
    | ok a =>
      cases h
      exact ⟨a, rfl, rfl⟩
  · rintro ⟨a, rfl, rfl⟩
    rfl

theorem map_eq_error {x : Except ε α} {f : α → β} {e : ε} :
    x.map f = .error e ↔ x = .error e := by
  constructor
  · intro h
    cases x with
    | error d =>
      cases h
      rfl
    | ok a => cases h
  · rintro rfl
    rfl

theorem mapError_ok {δ : Type} (f : ε → δ) (a : α) :
    (Except.ok a : Except ε α).mapError f = .ok a := rfl

theorem mapError_error {δ : Type} (f : ε → δ) (e : ε) :
    (Except.error e : Except ε α).mapError f = .error (f e) := rfl

theorem mapError_eq_ok {δ : Type} {x : Except ε α} {f : ε → δ} {a : α} :
    x.mapError f = .ok a ↔ x = .ok a := by
  constructor
  · intro h
    cases x with
    | error e => cases h
    | ok b =>
      cases h
      rfl
  · rintro rfl
    rfl

theorem mapError_eq_error {δ : Type} {x : Except ε α} {f : ε → δ} {d : δ} :
    x.mapError f = .error d ↔ ∃ e, x = .error e ∧ f e = d := by
  constructor
  · intro h
    cases x with
    | error e =>
      cases h
      exact ⟨e, rfl, rfl⟩
    | ok a => cases h
  · rintro ⟨e, rfl, rfl⟩
    rfl

theorem mapError_bind {δ : Type} (f : ε → δ) (x : Except ε α) (k : α → Except ε β) :
    (x >>= k).mapError f = x.mapError f >>= fun a => (k a).mapError f := by
  cases x <;> rfl

theorem mapError_mapM {δ : Type} (g : ε → δ) (f : α → Except ε β) (as : List α) :
    (as.mapM f).mapError g = as.mapM fun a => (f a).mapError g := by
  induction as with
  | nil => rfl
  | cons a as ih =>
    rw [List.mapM_cons, List.mapM_cons, mapError_bind, ← ih]
    congr 1
    funext b
    rw [mapError_bind]
    rfl

theorem exists_eq_map_ok {xs : List (Except ε α)} (h : ∀ x ∈ xs, ∃ a, x = .ok a) :
    ∃ as : List α, xs = as.map .ok := by
  induction xs with
  | nil => exact ⟨[], rfl⟩
  | cons x xs ih =>
    obtain ⟨⟨a, rfl⟩, hxs⟩ := List.forall_mem_cons.mp h
    obtain ⟨as, rfl⟩ := ih hxs
    exact ⟨a :: as, rfl⟩

/-- What holds of all that `f` can give holds of the members of what `mapM f` gives. -/
theorem forall_mem_of_mapM {f : α → Except ε β} {P : β → Prop}
    (hf : ∀ a b, f a = .ok b → P b) {as : List α} {bs : List β} (h : as.mapM f = .ok bs) :
    ∀ b ∈ bs, P b := by
  induction as generalizing bs with
  | nil =>
    cases h
    intro b hb
    cases hb
  | cons a as ih =>
    rw [List.mapM_cons] at h
    obtain ⟨c, hc, h⟩ := bind_eq_ok.mp h
    obtain ⟨cs, hcs, h⟩ := bind_eq_ok.mp h
    cases h
    intro b hb
    rcases List.mem_cons.mp hb with rfl | hb
    · exact hf a b hc
    · exact ih hcs b hb

theorem exists_mapM_eq_ok_iff {f : α → Except ε β} {as : List α} :
    (∃ bs, as.mapM f = .ok bs) ↔ ∀ a ∈ as, ∃ b, f a = .ok b := by
  induction as with
  | nil => exact iff_of_true ⟨[], rfl⟩ (by simp)
  | cons a as ih =>
    rw [List.forall_mem_cons, ← ih, List.mapM_cons]
    constructor
    · rintro ⟨bs, h⟩
      obtain ⟨c, hc, h⟩ := bind_eq_ok.mp h
      obtain ⟨cs, hcs, -⟩ := bind_eq_ok.mp h
      exact ⟨⟨c, hc⟩, cs, hcs⟩
    · rintro ⟨⟨c, hc⟩, cs, hcs⟩
      exact ⟨c :: cs, bind_eq_ok.mpr ⟨c, hc, bind_eq_ok.mpr ⟨cs, hcs, rfl⟩⟩⟩

theorem mapM_eq_ok_iff_forall₂ {f : α → Except ε β} {as : List α} {bs : List β} :
    as.mapM f = .ok bs ↔ List.Forall₂ (fun a b => f a = .ok b) as bs := by
  constructor
  · intro h
    induction as generalizing bs with
    | nil =>
      cases h
      exact .nil
    | cons a as ih =>
      rw [List.mapM_cons] at h
      obtain ⟨b, hb, h⟩ := bind_eq_ok.mp h
      obtain ⟨cs, hcs, h⟩ := bind_eq_ok.mp h
      cases h
      exact .cons hb (ih hcs)
  · intro h
    induction h with
    | nil => rfl
    | cons hb _ ih =>
      rw [List.mapM_cons, hb, ih]
      rfl

/-- `mapM` fails as `f` fails on the first member on which it does. -/
theorem mapM_eq_error_iff {f : α → Except ε β} {as : List α} {e : ε} :
    as.mapM f = .error e ↔ ∃ before a after, as = before ++ a :: after ∧
      (∀ b ∈ before, ∃ c, f b = .ok c) ∧ f a = .error e := by
  constructor
  · intro h
    induction as with
    | nil => cases h
    | cons a as ih =>
      rw [List.mapM_cons] at h
      rcases bind_eq_error.mp h with ha | ⟨c, hc, h⟩
      · exact ⟨[], a, as, rfl, by simp, ha⟩
      · rcases bind_eq_error.mp h with has | ⟨cs, -, h⟩
        · obtain ⟨before, b, after, rfl, hbefore, hb⟩ := ih has
          exact ⟨a :: before, b, after, rfl, List.forall_mem_cons.mpr ⟨⟨c, hc⟩, hbefore⟩, hb⟩
        · cases h
  · rintro ⟨before, a, after, rfl, hbefore, ha⟩
    induction before with
    | nil =>
      rw [List.nil_append, List.mapM_cons]
      exact bind_eq_error.mpr (.inl ha)
    | cons b before ih =>
      obtain ⟨⟨c, hc⟩, hbefore⟩ := List.forall_mem_cons.mp hbefore
      rw [List.cons_append, List.mapM_cons]
      exact bind_eq_error.mpr (.inr ⟨c, hc, bind_eq_error.mpr (.inl (ih hbefore))⟩)

/-- If the errors of `f` are tagged with the members that they belong to, then `mapM` fails with the
same error, tagged with the first member on which `f` fails. -/
theorem mapM_tagged_eq_error {δ : Type} {f : α → Except ε β} (tag : α → ε → δ) {as : List α} {e : ε}
    (h : as.mapM f = .error e) : ∃ before a after, as = before ++ a :: after ∧
      (∀ b ∈ before, ∃ c, f b = .ok c) ∧ f a = .error e ∧
      as.mapM (fun a => (f a).mapError (tag a)) = .error (tag a e) := by
  obtain ⟨before, a, after, has, hbefore, ha⟩ := mapM_eq_error_iff.mp h
  refine ⟨before, a, after, has, hbefore, ha, mapM_eq_error_iff.mpr ⟨before, a, after, has, ?_, ?_⟩⟩
  · intro b hb
    obtain ⟨c, hc⟩ := hbefore b hb
    exact ⟨c, mapError_eq_ok.mpr hc⟩
  · rw [ha, mapError_error]

theorem mapM_tagged_eq_ok {δ : Type} {f : α → Except ε β} (tag : α → ε → δ) {as : List α}
    {bs : List β} (h : as.mapM f = .ok bs) :
    as.mapM (fun a => (f a).mapError (tag a)) = .ok bs := by
  induction as generalizing bs with
  | nil =>
    cases h
    rfl
  | cons a as ih =>
    rw [List.mapM_cons] at h ⊢
    obtain ⟨c, hc, h⟩ := bind_eq_ok.mp h
    obtain ⟨cs, hcs, h⟩ := bind_eq_ok.mp h
    cases h
    exact bind_eq_ok.mpr ⟨c, mapError_eq_ok.mpr hc, bind_eq_ok.mpr ⟨cs, ih hcs, rfl⟩⟩

/-- If `f` undoes `g` on all of some values, then `mapM f` undoes `map g` on them. -/
theorem mapM_map_eq_ok {f : α → Except ε β} {g : β → α} {bs : List β}
    (h : ∀ b ∈ bs, f (g b) = .ok b) : (bs.map g).mapM f = .ok bs := by
  induction bs with
  | nil => rfl
  | cons b bs ih =>
    obtain ⟨hb, hbs⟩ := List.forall_mem_cons.mp h
    rw [List.map_cons, List.mapM_cons, hb, ih hbs]
    rfl

/-- If `f` succeeds on just what `g` gives for some values, and undoes it there, then so does
`mapM f` for `map g`. -/
theorem mapM_eq_ok_iff {f : α → Except ε β} {g : β → α} {P : β → Prop}
    (h : ∀ a b, f a = .ok b ↔ a = g b ∧ P b) {as : List α} {bs : List β} :
    as.mapM f = .ok bs ↔ as = bs.map g ∧ ∀ b ∈ bs, P b := by
  constructor
  · intro hbs
    refine ⟨?_, forall_mem_of_mapM (fun a b hb => ((h a b).mp hb).2) hbs⟩
    induction as generalizing bs with
    | nil =>
      cases hbs
      rfl
    | cons a as ih =>
      rw [List.mapM_cons] at hbs
      obtain ⟨c, hc, hbs⟩ := bind_eq_ok.mp hbs
      obtain ⟨cs, hcs, hbs⟩ := bind_eq_ok.mp hbs
      cases hbs
      rw [List.map_cons, ← ih hcs, ← ((h a c).mp hc).1]
  · rintro ⟨rfl, hbs⟩
    exact mapM_map_eq_ok fun b hb => (h (g b) b).mpr ⟨rfl, hbs b hb⟩

theorem mapM_mapError_eq_ok_iff {δ : Type} {f : ε → δ} {items : List (Except ε α)} {as : List α} :
    items.mapM (fun item => item.mapError f) = .ok as ↔ items = as.map .ok := by
  have hitem : ∀ (item : Except ε α) a, item.mapError f = .ok a ↔ item = .ok a ∧ True := by
    intro item a
    rw [mapError_eq_ok, and_true]
  rw [mapM_eq_ok_iff hitem]
  simp

theorem mapM_mapError_eq_error_iff {δ : Type} {f : ε → δ} {items : List (Except ε α)} {d : δ} :
    items.mapM (fun item => item.mapError f) = .error d ↔
      ∃ (as : List α) (e : ε) (rest : List (Except ε α)),
        items = as.map .ok ++ .error e :: rest ∧ f e = d := by
  rw [mapM_eq_error_iff]
  constructor
  · rintro ⟨before, item, rest, rfl, hbefore, hitem⟩
    obtain ⟨e, rfl, he⟩ := mapError_eq_error.mp hitem
    obtain ⟨as, rfl⟩ := exists_eq_map_ok fun b hb => (hbefore b hb).imp fun _ => mapError_eq_ok.mp
    exact ⟨as, e, rest, rfl, he⟩
  · rintro ⟨as, e, rest, rfl, he⟩
    refine ⟨as.map .ok, .error e, rest, rfl, ?_, congrArg Except.error he⟩
    intro b hb
    obtain ⟨a, -, rfl⟩ := List.mem_map.mp hb
    exact ⟨a, rfl⟩

end TermRules

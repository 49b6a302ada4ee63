import TermRules.Text.Order

/-!
# Sorted maps

Finite maps from texts, kept as a list in strictly ascending order of the keys. A map is
determined by its values: `ext_get?`. Lookups after an update are given by `get?_insert` and
`get?_erase`.
-/

namespace TermRules

/-- A finite map from texts to `α`. -/
structure SortedMap (α : Type u) where
  /-- The keys with their values. -/
  entries : List (String × α)
  ascending : entries.Pairwise fun a b => Precedes a.1 b.1

namespace SortedMap

variable {α : Type u}

instance [DecidableEq α] : DecidableEq (SortedMap α) := fun m n =>
  if h : m.entries = n.entries then
    .isTrue (by cases m; cases n; cases h; rfl)
  else
    .isFalse fun e => h (congrArg entries e)

/-- The map without keys. -/
def empty : SortedMap α := ⟨[], .nil⟩

/-- The keys with their values, in ascending order. -/
def toList (m : SortedMap α) : List (String × α) := m.entries

/-- The number of keys. -/
def size (m : SortedMap α) : Nat := m.entries.length

/-- The value of `k` in a list of entries. -/
def lookupEntry (k : String) : List (String × α) → Option α
  | [] => none
  | (l, v) :: rest => if k = l then some v else lookupEntry k rest

/-- The value of a key. -/
def get? (m : SortedMap α) (k : String) : Option α := lookupEntry k m.entries

/-- Whether a key has a value. -/
def contains (m : SortedMap α) (k : String) : Bool := (m.get? k).isSome

/-! ## Updates -/

/-- The entries with `v` as the value of `k`, at the place of `k` in the order. -/
def insertEntry (k : String) (v : α) : List (String × α) → List (String × α)
  | [] => [(k, v)]
  | (l, w) :: rest =>
    match Text.compare k.toList l.toList with
    | .lt => (k, v) :: (l, w) :: rest
    | .eq => (k, v) :: rest
    | .gt => (l, w) :: insertEntry k v rest

theorem mem_insertEntry {k : String} {v : α} {e : String × α} {es : List (String × α)}
    (h : e ∈ insertEntry k v es) : e = (k, v) ∨ e ∈ es := by
  induction es with
  | nil => simpa [insertEntry] using h
  | cons d es ih =>
    simp only [insertEntry] at h
    split at h
    · simpa using h
    · simp only [List.mem_cons] at h ⊢
      exact h.imp_right .inr
    · simp only [List.mem_cons] at h ⊢
      rcases h with h | h
      · exact .inr (.inl h)
      · exact (ih h).imp_right .inr

theorem insertEntry_ascending (k : String) (v : α) {es : List (String × α)}
    (h : es.Pairwise fun a b => Precedes a.1 b.1) :
    (insertEntry k v es).Pairwise fun a b => Precedes a.1 b.1 := by
  induction es with
  | nil => simp [insertEntry]
  | cons d es ih =>
    obtain ⟨hd, hes⟩ := List.pairwise_cons.mp h
    simp only [insertEntry]
    split
    next hlt =>
      refine List.pairwise_cons.mpr ⟨fun e he => ?_, h⟩
      rcases List.mem_cons.mp he with rfl | he
      · exact hlt
      · exact Precedes.trans hlt (hd e he)
    next heq =>
      have hkd : k = d.1 := String.toList_inj.mp (Text.eq_of_compare heq)
      exact List.pairwise_cons.mpr ⟨fun e he => hkd ▸ hd e he, hes⟩
    next hgt =>
      refine List.pairwise_cons.mpr ⟨fun e he => ?_, ih hes⟩
      rcases mem_insertEntry he with rfl | he
      · have := Text.compare_swap k.toList d.1.toList
        rw [hgt] at this
        exact this.symm
      · exact hd e he

/-- The map with `v` as the value of `k`. -/
def insert (m : SortedMap α) (k : String) (v : α) : SortedMap α :=
  ⟨insertEntry k v m.entries, insertEntry_ascending k v m.ascending⟩

/-- The map without the key `k`. -/
def erase (m : SortedMap α) (k : String) : SortedMap α :=
  ⟨m.entries.filter fun e => e.1 != k, m.ascending.filter _⟩

/-- The map of a list of entries, in which a later entry of a key replaces an earlier one. -/
def ofList (es : List (String × α)) : SortedMap α :=
  es.foldl (fun m e => m.insert e.1 e.2) empty

/-! ## Lookups -/

@[simp]
theorem get?_empty (k : String) : (empty : SortedMap α).get? k = none := rfl

theorem get?_insert (m : SortedMap α) (k l : String) (v : α) :
    (m.insert k v).get? l = if l = k then some v else m.get? l := by
  simp only [get?, insert]
  generalize m.entries = es
  induction es with
  | nil => rfl
  | cons d es ih =>
    simp only [insertEntry]
    split
    · rfl
    next heq =>
      have hkd : k = d.1 := String.toList_inj.mp (Text.eq_of_compare heq)
      simp only [lookupEntry, ← hkd]
      split <;> rfl
    next hgt =>
      have hkd : k ≠ d.1 := fun e => by simp [e, Text.compare_self] at hgt
      simp only [lookupEntry, ih]
      by_cases h : l = d.1
      · simp [h, hkd.symm]
      · simp [h]

theorem get?_erase (m : SortedMap α) (k l : String) :
    (m.erase k).get? l = if l = k then none else m.get? l := by
  simp only [get?, erase]
  generalize m.entries = es
  induction es with
  | nil => simp [lookupEntry]
  | cons d es ih =>
    by_cases hd : d.1 = k
    · simp only [hd, bne_self_eq_false, Bool.false_eq_true, not_false_eq_true,
        List.filter_cons_of_neg, ih, lookupEntry]
      by_cases h : l = k <;> simp [h]
    · simp only [List.filter_cons, bne_iff_ne, ne_eq, hd, not_false_eq_true, if_true, lookupEntry,
        ih]
      by_cases h : l = d.1
      · simp [h, hd]
      · simp [h]

theorem get?_eq_some_of_mem {m : SortedMap α} {k : String} {v : α} (h : (k, v) ∈ m.entries) :
    m.get? k = some v := by
  obtain ⟨es, hes⟩ := m
  simp only [get?] at h ⊢
  induction es with
  | nil => simp at h
  | cons d es ih =>
    obtain ⟨hd, hes⟩ := List.pairwise_cons.mp hes
    rcases List.mem_cons.mp h with rfl | h
    · simp [lookupEntry]
    · simp [lookupEntry, (hd _ h).ne.symm, ih hes h]

theorem mem_of_get?_eq_some {m : SortedMap α} {k : String} {v : α} (h : m.get? k = some v) :
    (k, v) ∈ m.entries := by
  simp only [get?] at h
  generalize m.entries = es at h ⊢
  induction es with
  | nil => simp [lookupEntry] at h
  | cons d es ih =>
    simp only [lookupEntry] at h
    split at h
    next heq =>
      cases h
      simp [heq]
    · exact List.mem_cons_of_mem _ (ih h)

theorem ext_get? {m n : SortedMap α} (h : ∀ k, m.get? k = n.get? k) : m = n := by
  have mem (e : String × α) : e ∈ m.entries ↔ e ∈ n.entries :=
    ⟨fun he => mem_of_get?_eq_some (h e.1 ▸ get?_eq_some_of_mem he),
      fun he => mem_of_get?_eq_some ((h e.1).symm ▸ get?_eq_some_of_mem he)⟩
  obtain ⟨ms, hms⟩ := m
  obtain ⟨ns, hns⟩ := n
  clear h
  simp only at mem
  suffices ms = ns by simp [this]
  induction ms generalizing ns with
  | nil =>
    cases ns with
    | nil => rfl
    | cons b ns => simpa using mem b
  | cons a ms ih =>
    cases ns with
    | nil => simpa using mem a
    | cons b ns =>
      obtain ⟨ha, hms'⟩ := List.pairwise_cons.mp hms
      obtain ⟨hb, hns'⟩ := List.pairwise_cons.mp hns
      have hab : a = b := by
        have h₁ : a = b ∨ a ∈ ns := by simpa using (mem a).mp (by simp)
        have h₂ : b = a ∨ b ∈ ms := by simpa using (mem b).mpr (by simp)
        rcases h₁ with h₁ | h₁
        · exact h₁
        · rcases h₂ with h₂ | h₂
          · exact h₂.symm
          · exact absurd (ha b h₂) (hb a h₁).asymm
      subst hab
      have : ms = ns := ih hms' ns hns' fun e => by
        have hm := mem e
        simp only [List.mem_cons] at hm
        constructor
        · intro he
          rcases hm.mp (.inr he) with rfl | he'
          · exact absurd (ha _ he) (Precedes.irrefl _)
          · exact he'
        · intro he
          rcases hm.mpr (.inr he) with rfl | he'
          · exact absurd (hb _ he) (Precedes.irrefl _)
          · exact he'
      rw [this]

/-! ## Maps of lists -/

/-- A key behind all others is inserted at the end. -/
theorem insertEntry_of_precedes {k : String} {es : List (String × α)}
    (h : ∀ e ∈ es, Precedes e.1 k) (v : α) : insertEntry k v es = es ++ [(k, v)] := by
  induction es with
  | nil => rfl
  | cons d es ih =>
    have hgt : Text.compare k.toList d.1.toList = .gt := by
      rw [← Text.compare_swap, show Text.compare d.1.toList k.toList = .lt from
        h d List.mem_cons_self]
      rfl
    rw [insertEntry, hgt, List.cons_append]
    simp only
    rw [ih fun e he => h e (List.mem_cons_of_mem _ he)]

theorem entries_foldl_insert {m : SortedMap α} {es : List (String × α)}
    (h : (m.entries ++ es).Pairwise fun a b => Precedes a.1 b.1) :
    (es.foldl (fun m e => m.insert e.1 e.2) m).entries = m.entries ++ es := by
  induction es generalizing m with
  | nil => simp
  | cons e es ih =>
    have hlast : ∀ d ∈ m.entries, Precedes d.1 e.1 := fun d hd =>
      (List.pairwise_append.mp h).2.2 d hd e List.mem_cons_self
    have hinsert : (m.insert e.1 e.2).entries = m.entries ++ [e] :=
      insertEntry_of_precedes hlast e.2
    rw [List.foldl_cons, ih (by simpa [hinsert] using h), hinsert, List.append_assoc]
    rfl

theorem eq_of_entries_eq {m n : SortedMap α} (h : m.entries = n.entries) : m = n := by
  cases m
  cases n
  cases h
  rfl

theorem ofList_toList (m : SortedMap α) : ofList m.toList = m :=
  eq_of_entries_eq (entries_foldl_insert (m := empty) m.ascending)

end SortedMap

end TermRules

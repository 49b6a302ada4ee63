import TermRules.Message
import TermRules.Text.Order

/-!
# Tables of names

A table has an entry for each of some names. The entries are kept in no particular order:
`get?_insert` and `get?_map` say what is found for a name, and only `Table.docs` puts the names in
an order, that of the texts.
-/

namespace TermRules

/-- What is registered for a name: its documentation and what it means. -/
structure Entry (κ : Type) where
  doc : String
  make : κ
  deriving DecidableEq

/-- A table of names. -/
structure Table (κ : Type) where
  /-- The names with their entries, in any order. -/
  entries : List (String × Entry κ)
  distinct : (entries.map Prod.fst).Nodup

/-! ## The order of documentation -/

/-- Whether a name with its documentation stands before another one, or is the same: the names
decide, and after them the documentation. -/
def docLe (d e : String × String) : Bool :=
  ((Text.compare d.1.toList e.1.toList).then (Text.compare d.2.toList e.2.toList)).isLE

theorem docLe_iff {d e : String × String} :
    docLe d e = true ↔ Precedes d.1 e.1 ∨ d.1 = e.1 ∧ (Precedes d.2 e.2 ∨ d.2 = e.2) := by
  have heq (k l : String) : Text.compare k.toList l.toList = .eq ↔ k = l :=
    ⟨fun h => String.toList_inj.mp (Text.eq_of_compare h), fun h => h ▸ Text.compare_self _⟩
  rw [Precedes, Precedes, ← heq, ← heq, docLe]
  cases Text.compare d.1.toList e.1.toList <;> cases Text.compare d.2.toList e.2.toList <;> decide

theorem docLe_trans {d e f : String × String} (h₁ : docLe d e = true) (h₂ : docLe e f = true) :
    docLe d f = true := by
  rw [docLe_iff] at *
  rcases h₁ with h₁ | ⟨hname₁, hdoc₁⟩
  · rcases h₂ with h₂ | ⟨hname₂, -⟩
    · exact .inl (h₁.trans h₂)
    · exact .inl (hname₂ ▸ h₁)
  · rcases h₂ with h₂ | ⟨hname₂, hdoc₂⟩
    · exact .inl (hname₁ ▸ h₂)
    · refine .inr ⟨hname₁.trans hname₂, ?_⟩
      rcases hdoc₁ with h | h
      · exact .inl (hdoc₂.elim h.trans fun he => he ▸ h)
      · rwa [h]

theorem docLe_total (d e : String × String) : (docLe d e || docLe e d) = true := by
  rw [Bool.or_eq_true, docLe_iff, docLe_iff]
  rcases Precedes.trichotomy d.1 e.1 with h | h | h
  · exact .inl (.inl h)
  · rcases Precedes.trichotomy d.2 e.2 with h' | h' | h'
    · exact .inl (.inr ⟨h, .inl h'⟩)
    · exact .inl (.inr ⟨h, .inr h'⟩)
    · exact .inr (.inr ⟨h.symm, .inl h'⟩)
  · exact .inr (.inl h)

theorem docLe_antisymm {d e : String × String} (h₁ : docLe d e = true) (h₂ : docLe e d = true) :
    d = e := by
  rw [docLe_iff] at h₁ h₂
  rcases h₁ with h₁ | ⟨hname, hdoc⟩
  · rcases h₂ with h₂ | ⟨h₂, -⟩
    · exact absurd h₂ h₁.asymm
    · exact absurd h₂.symm h₁.ne
  · rcases h₂ with h₂ | ⟨-, h₂⟩
    · exact absurd hname.symm h₂.ne
    · refine Prod.ext hname ?_
      rcases hdoc with h | h
      · exact h₂.elim (fun h' => absurd h' h.asymm) Eq.symm
      · exact h

namespace Table

variable {κ μ : Type}

/-- The table without names. -/
def empty : Table κ := ⟨[], .nil⟩

/-- The entry of a name. -/
def get? (t : Table κ) (name : String) : Option (Entry κ) := t.entries.lookup name

/-- Whether a name has an entry. -/
def contains (t : Table κ) (name : String) : Bool := (t.get? name).isSome

/-- The names with their documentation, in the order of the names. -/
def docs (t : Table κ) : List (String × String) :=
  (t.entries.map fun e => (e.1, e.2.doc)).mergeSort docLe

theorem nodup_insert (t : Table κ) (name : String) (entry : Entry κ) :
    (((name, entry) :: t.entries.filter fun e => e.1 != name).map Prod.fst).Nodup := by
  rw [List.map_cons, List.nodup_cons]
  refine ⟨fun h => ?_, List.Pairwise.sublist (List.filter_sublist.map _) t.distinct⟩
  obtain ⟨e, he, rfl⟩ := List.mem_map.mp h
  simp at he

/-- The table with the entry for `name`, which replaces an earlier one. -/
def insert (t : Table κ) (name : String) (entry : Entry κ) : Table κ :=
  ⟨(name, entry) :: t.entries.filter fun e => e.1 != name, t.nodup_insert name entry⟩

/-- The table with `f` applied to every entry. -/
def map (f : Entry κ → Entry μ) (t : Table κ) : Table μ where
  entries := t.entries.map fun e => (e.1, f e.2)
  distinct := by
    rw [List.map_map]
    exact t.distinct

/-- The table of a list of entries, in which a later entry of a name replaces an earlier one. -/
def ofList (es : List (String × Entry κ)) : Table κ :=
  es.foldl (fun t e => t.insert e.1 e.2) empty

/-- The table with a meaning for `name`, which replaces an earlier one. -/
def register (t : Table κ) (name doc : String) (make : κ) : Logged (Table κ) :=
  ⟨if t.contains name then [.redefine name] else [], t.insert name ⟨doc, make⟩⟩

/-! ## Entries -/

theorem get?_eq_some_iff {t : Table κ} {name : String} {entry : Entry κ} :
    t.get? name = some entry ↔ (name, entry) ∈ t.entries := by
  obtain ⟨es, hes⟩ := t
  simp only [get?]
  induction es with
  | nil => simp
  | cons e es ih =>
    obtain ⟨first, e⟩ := e
    rw [List.map_cons, List.nodup_cons] at hes
    obtain ⟨hfirst, hes⟩ := hes
    rw [List.lookup_cons, List.mem_cons]
    by_cases hname : name = first
    · subst hname
      have hother : (name, entry) ∉ es := fun h => hfirst (List.mem_map.mpr ⟨_, h, rfl⟩)
      simp [hother, eq_comm]
    · rw [beq_eq_false_iff_ne.mpr hname]
      simp [hname, ih hes]

theorem get?_insert (t : Table κ) (name other : String) (entry : Entry κ) :
    (t.insert name entry).get? other = if other = name then some entry else t.get? other := by
  refine Option.ext fun e => ?_
  rw [get?_eq_some_iff, insert, List.mem_cons, List.mem_filter]
  by_cases h : other = name
  · simp [h, eq_comm]
  · simp [h, get?_eq_some_iff]

theorem get?_map (f : Entry κ → Entry μ) (t : Table κ) (name : String) :
    (t.map f).get? name = (t.get? name).map f := by
  refine Option.ext fun e => ?_
  rw [get?_eq_some_iff, map, List.mem_map, Option.map_eq_some_iff]
  simp only [get?_eq_some_iff]
  constructor
  · rintro ⟨⟨name, entry⟩, hmem, h⟩
    cases h
    exact ⟨entry, hmem, rfl⟩
  · rintro ⟨entry, hmem, rfl⟩
    exact ⟨_, hmem, rfl⟩

theorem contains_map (f : Entry κ → Entry μ) (t : Table κ) (name : String) :
    (t.map f).contains name = t.contains name := by
  rw [contains, get?_map, Option.isSome_map, contains]

theorem mem_docs_iff {t : Table κ} {name doc : String} :
    (name, doc) ∈ t.docs ↔ ∃ make, t.get? name = some ⟨doc, make⟩ := by
  rw [docs, List.mem_mergeSort, List.mem_map]
  simp only [get?_eq_some_iff]
  constructor
  · rintro ⟨⟨name, entry⟩, hmem, h⟩
    cases h
    exact ⟨entry.make, hmem⟩
  · rintro ⟨make, hmem⟩
    exact ⟨_, hmem, rfl⟩

end Table

end TermRules

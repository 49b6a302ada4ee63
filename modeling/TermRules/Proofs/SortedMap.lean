import Mathlib.Data.List.Induction
import TermRules.SortedMap

/-!
# The last entry of a key

In the map of a list of entries each key has the value of its last entry in the list
(`mem_toList_ofList_iff`).
-/

namespace TermRules

/-- The last entry of the key `k` in a list of entries gives it the value `v`. -/
def IsLastEntry {α : Type u} (es : List (String × α)) (k : String) (v : α) : Prop :=
  ∃ before after, es = before ++ (k, v) :: after ∧ ∀ e ∈ after, e.1 ≠ k

theorem isLastEntry_append_singleton {α : Type u} {es : List (String × α)} {e : String × α}
    {k : String} {v : α} :
    IsLastEntry (es ++ [e]) k v ↔ if k = e.1 then e.2 = v else IsLastEntry es k v := by
  constructor
  · rintro ⟨before, after, heq, hafter⟩
    rcases List.eq_nil_or_concat after with rfl | ⟨after, d, rfl⟩
    · obtain ⟨rfl, he⟩ := List.append_inj' heq rfl
      cases he
      simp
    · rw [List.concat_eq_append, ← List.cons_append, ← List.append_assoc] at heq
      obtain ⟨rfl, he⟩ := List.append_inj' heq rfl
      cases he
      have hne : k ≠ e.1 := fun hk => hafter e (by simp) hk.symm
      rw [if_neg hne]
      exact ⟨before, after, rfl, fun d hd => hafter d (by simp [hd])⟩
  · intro h
    split at h
    next hk =>
      obtain ⟨l, w⟩ := e
      cases hk
      cases h
      exact ⟨es, [], rfl, by simp⟩
    next hk =>
      obtain ⟨before, after, rfl, hafter⟩ := h
      refine ⟨before, after ++ [e], by simp, fun d hd => ?_⟩
      rcases List.mem_append.mp hd with hd | hd
      · exact hafter d hd
      · rw [List.mem_singleton.mp hd]
        exact Ne.symm hk

namespace SortedMap

variable {α : Type u}

theorem ofList_append_singleton (es : List (String × α)) (e : String × α) :
    ofList (es ++ [e]) = (ofList es).insert e.1 e.2 := by
  simp [ofList]

theorem get?_ofList_eq_some_iff {es : List (String × α)} {k : String} {v : α} :
    (ofList es).get? k = some v ↔ IsLastEntry es k v := by
  induction es using List.reverseRecOn with
  | nil => simp [ofList, IsLastEntry]
  | append_singleton es e ih =>
    rw [ofList_append_singleton, get?_insert, isLastEntry_append_singleton]
    split
    · simp
    · exact ih

theorem mem_toList_ofList_iff {es : List (String × α)} {k : String} {v : α} :
    (k, v) ∈ (ofList es).toList ↔ IsLastEntry es k v := by
  rw [← get?_ofList_eq_some_iff]
  exact ⟨get?_eq_some_of_mem, mem_of_get?_eq_some⟩

end SortedMap

end TermRules

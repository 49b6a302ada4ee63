import Mathlib.Data.List.Nodup
import TermRules.Proofs.Text.ByteOrder
import TermRules.Registry.Table

/-!
# The list of the names of a table

The entries of a table are in no particular order, but its names are listed in one: that of their
bytes (`Table.pairwise_docs`). So the list depends on nothing but what is found for the names, and
not on how the table came about (`Table.docs_eq_of_get?`).
-/

namespace TermRules.Table

variable {κ : Type} {t t' : Table κ}

/-- The names, each with its documentation, in the order of the entries. -/
theorem docs_perm (t : Table κ) : t.docs.Perm (t.entries.map fun e => (e.1, e.2.doc)) :=
  List.mergeSort_perm ..

theorem pairwise_docLe_docs (t : Table κ) : t.docs.Pairwise fun d e => docLe d e = true :=
  @List.pairwise_mergeSort _ docLe (fun _ _ _ => docLe_trans) docLe_total _

/-- No name is listed twice. -/
theorem nodup_names_docs (t : Table κ) : (t.docs.map Prod.fst).Nodup := by
  rw [(t.docs_perm.map _).nodup_iff, List.map_map]
  exact t.distinct

/-- The names are listed in the order of their bytes. -/
theorem pairwise_docs (t : Table κ) :
    t.docs.Pairwise fun d e => Text.bytes d.1 < Text.bytes e.1 := by
  have hdistinct : t.docs.Pairwise fun d e => d.1 ≠ e.1 := List.pairwise_map.mp t.nodup_names_docs
  refine (t.pairwise_docLe_docs.and hdistinct).imp fun {d e} h => ?_
  obtain ⟨hle, hne⟩ := h
  rcases docLe_iff.mp hle with hprecedes | ⟨heq, -⟩
  · exact precedes_iff_bytes_lt.mp hprecedes
  · exact absurd heq hne

/-- Tables in which the same is found list the same names, with the same documentation. -/
theorem docs_eq_of_get? (h : ∀ name, t.get? name = t'.get? name) : t.docs = t'.docs := by
  have hnodup : ∀ s : Table κ, s.docs.Nodup := fun s => .of_map _ s.nodup_names_docs
  have hperm : t.docs.Perm t'.docs := by
    refine (List.perm_ext_iff_of_nodup (hnodup t) (hnodup t')).mpr fun ⟨name, doc⟩ => ?_
    rw [mem_docs_iff, mem_docs_iff, h]
  exact hperm.eq_of_pairwise (fun _ _ _ _ => docLe_antisymm) t.pairwise_docLe_docs
    t'.pairwise_docLe_docs

end TermRules.Table

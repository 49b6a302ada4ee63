import TermRules.Proofs.Ruleset.Placement
import TermRules.Proofs.Sexp.Layout

/-!
# Several texts of rules, and one

Texts of rules can be compiled one after the other, or be joined by line feeds and then compiled.
If the reader meets no error in any of them but the last, then this makes no difference:
`Ruleset.outcome_parse_intercalate`. An error of the reader in the last text stands further on in
the joined text, by the number of bytes before that text (`Sexp.bytesBeforeLast`).

Without the condition it would make a difference. An open list of one text could be closed in the
next, and so could a quotation.
-/

namespace TermRules

open Text

/-! ## Items of joined texts -/

namespace Sexp

/-- The number of bytes before the last of the texts, when they are joined by line feeds. -/
def bytesBeforeLast : List String → Nat
  | [] | [_] => 0
  | text :: texts => utf8Length text.toList + 1 + bytesBeforeLast texts

/-- The reader meets no error in the text. -/
def Readable (text : String) : Prop := ∀ item ∈ items text, ∃ x, item = .ok x

theorem Readable.exists_items_eq {text : String} (h : Readable text) :
    ∃ xs : List Sexp, items text = xs.map .ok := exists_eq_map_ok h

/-- Joined texts have the items of the texts one after the other, but for the offset of an error. -/
theorem items_intercalate {texts : List String} (h : ∀ text ∈ texts.dropLast, Readable text) :
    items ("\n".intercalate texts) =
      mapItems (bytesBeforeLast texts + ·) (texts.flatMap items) := by
  induction texts with
  | nil =>
    rw [String.intercalate_nil]
    cbv
  | cons text texts ih =>
    cases texts with
    | nil =>
      have hid : (fun n => bytesBeforeLast [text] + n) = id := funext Nat.zero_add
      rw [String.intercalate_singleton, List.flatMap_singleton, hid, mapItems_id]
    | cons next texts =>
      rw [List.dropLast_cons_cons] at h
      obtain ⟨htext, hnext⟩ := List.forall_mem_cons.mp h
      obtain ⟨xs, hxs⟩ := htext.exists_items_eq
      have hitems : (text :: next :: texts).flatMap items =
          items text ++ (next :: texts).flatMap items := List.flatMap_cons
      rw [String.intercalate_cons_cons, items_line hxs, ih hnext, mapItems_mapItems, hitems,
        mapItems_append, hxs, mapItems_map_ok]
      simp only [bytesBeforeLast, Nat.add_assoc]

/-- A quotation that is open in one text is closed in the next. -/
example : items ("\n".intercalate ["\"a", "b\""]) = [.ok (.atom "a\nb")] := by cbv

end Sexp

/-! ## Rules of joined texts -/

namespace Ruleset

/-- **Joined texts.** Let the reader meet no error in any of some texts but the last. Then the same
rules, in the same order, come out of the texts one after the other as out of the texts joined by
line feeds, or the same error, except that the joined text has what the reader meets in the last
text further on, by the number of bytes before that text. -/
theorem outcome_parse_intercalate (reg : Registry) {texts : List String}
    (h : ∀ text ∈ texts.dropLast, Sexp.Readable text) :
    (parse reg ("\n".intercalate texts)).outcome =
      (compile reg texts).outcome.mapError
        (CompileError.mapOffset (Sexp.bytesBeforeLast texts + ·)) := by
  rw [parse, outcome_compile, List.flatMap_singleton, Sexp.items_intercalate h,
    mapError_outcome_compile]

/-- Two texts. The first ends in a comment, and the second closes a list that is not open. -/
def commentThenClose : List String := ["(() ()) ; c", "\n)"]

theorem outcome_parse_commentThenClose :
    (∀ text ∈ commentThenClose.dropLast, Sexp.Readable text) ∧
      (compile .empty commentThenClose).outcome = .error (.sexp (.unexpectedClose 1)) ∧
      (parse .empty ("\n".intercalate commentThenClose)).outcome =
        .error (.sexp (.unexpectedClose 13)) := by
  have hreadable : ∀ text ∈ commentThenClose.dropLast, Sexp.Readable text := by
    intro text htext
    obtain rfl := List.mem_singleton.mp htext
    have hitems : Sexp.items "(() ()) ; c" = [.ok (.list [.list [], .list []])] := by cbv
    intro item hitem
    rw [hitems] at hitem
    exact ⟨_, List.mem_singleton.mp hitem⟩
  have hcompile : (compile .empty commentThenClose).outcome =
      .error (.sexp (.unexpectedClose 1)) := by cbv
  refine ⟨hreadable, hcompile, ?_⟩
  rw [outcome_parse_intercalate .empty hreadable, hcompile]
  rfl

end Ruleset

end TermRules

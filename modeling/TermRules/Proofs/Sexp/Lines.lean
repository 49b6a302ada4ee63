import TermRules.Proofs.Sexp.Recognition
import TermRules.Proofs.Sexp.RoundTrip

/-!
# Reading one S-expression from each line

A text that holds S-expressions one on each line (`Sexp.lines`) denotes these S-expressions, so
that they are its items: `items_lines`. A written form has no line feed in it, whatever the atoms
are, since an atom with a line feed is quoted and the line feed escaped. So the lines of the text
are the written forms: `splitOn_linesChars`.
-/

namespace TermRules.Sexp

open Text

/-- The text of some S-expressions, each on a line. -/
def lines (xs : List Sexp) : String := String.join (xs.map fun x => x.print ++ "\n")

/-- The characters of some S-expressions, each on a line. -/
def linesChars (xs : List Sexp) : List Char := xs.flatMap fun x => x.chars ++ ['\n']

theorem toList_lines (xs : List Sexp) : (lines xs).toList = linesChars xs := by
  simp [lines, linesChars, print, List.flatMap_map]

theorem derives_linesChars (xs : List Sexp) (pos : Nat) :
    Derives (solid (scan pos (linesChars xs))) xs := by
  induction xs generalizing pos with
  | nil =>
    rw [linesChars, List.flatMap_nil, scan]
    exact .nil
  | cons x xs ih =>
    -- The line feed ends an atom, and is itself nothing but layout.
    have hx := solid_scan_chars x pos ('\n' :: linesChars xs) (endsAtom_cons (by decide) _)
    rw [show linesChars (x :: xs) = x.chars ++ '\n' :: linesChars xs by simp [linesChars], hx,
      solid_scan_cons_of_isLayout (by decide)]
    exact (derives_writtenLexemes x pos).append (ih _)

theorem denotes_lines {xs : List Sexp} (h : ∀ x ∈ xs, x.depth ≤ maxDepth) :
    Denotes (lines xs) xs := by
  refine .of_derives ?_ (depthAll_le_iff.mpr h)
  rw [lexemes, toList_lines]
  exact derives_linesChars xs 0

theorem items_lines {xs : List Sexp} (h : ∀ x ∈ xs, x.depth ≤ maxDepth) :
    items (lines xs) = xs.map .ok :=
  items_of_denotes (denotes_lines h)

/-! ## Line feeds -/

theorem newline_notMem_encodeChar (c : Char) : '\n' ∉ encodeChar c := by
  unfold encodeChar escapeLetter?
  split
  next letter h => split at h <;> cases h <;> simp
  next h =>
    rintro hc
    obtain rfl := List.mem_singleton.mp hc
    cases h

theorem newline_notMem_writeAtom (text : List Char) : '\n' ∉ writeAtom text := by
  unfold writeAtom
  split
  next hbare =>
    intro hmem
    simp only [isBare, Bool.and_eq_true, List.all_eq_true] at hbare
    exact absurd (hbare.2 _ hmem) (by decide)
  next =>
    have hencode : '\n' ∉ encode text := by
      intro hmem
      obtain ⟨c, -, hc⟩ := List.mem_flatMap.mp hmem
      exact newline_notMem_encodeChar c hc
    simpa [quote] using hencode

theorem newline_notMem_restChars {xs : List Sexp} (h : ∀ x ∈ xs, '\n' ∉ x.chars) :
    '\n' ∉ restChars xs := by
  induction xs with
  | nil => simp [restChars]
  | cons x xs ih =>
    obtain ⟨hx, hxs⟩ := List.forall_mem_cons.mp h
    simp [restChars, hx, ih hxs]

/-- A written form stands on one line. -/
theorem newline_notMem_chars (x : Sexp) : '\n' ∉ x.chars := by
  induction x using Sexp.induction with
  | atom text => exact newline_notMem_writeAtom _
  | list members ih =>
    cases members with
    | nil => simp [chars, membersChars]
    | cons x xs =>
      obtain ⟨hx, hxs⟩ := List.forall_mem_cons.mp ih
      simp [chars, membersChars, hx, newline_notMem_restChars hxs]

/-- The lines of a text that holds S-expressions one on each line are their written forms. Nothing
follows the last line feed. -/
theorem splitOn_linesChars (xs : List Sexp) :
    (linesChars xs).splitOn '\n' = xs.map chars ++ [[]] := by
  induction xs with
  | nil => rfl
  | cons x xs ih =>
    have hcons : linesChars (x :: xs) = x.chars ++ '\n' :: linesChars xs := by simp [linesChars]
    have hx : ∀ c ∈ x.chars, (c == '\n') = false := by
      intro c hc
      refine beq_eq_false_iff_ne.mpr ?_
      rintro rfl
      exact newline_notMem_chars x hc
    rw [List.splitOn_eq_splitOnP] at ih ⊢
    rw [hcons, List.splitOnP_append_cons_of_forall_mem hx _ (beq_self_eq_true _), ih, List.map_cons,
      List.cons_append]

end TermRules.Sexp

import TermRules.Proofs.Sexp.RoundTrip
import TermRules.Proofs.Sexp.Tiling

/-!
# Atoms that need no quotes

The printer looks at the characters of an atom to decide whether it needs quotes. What this decides
is whether the text of the atom, as it stands, reads as that atom: `print_atom_eq_iff`.

A text that reads as an atom has one lexeme besides blanks (`exists_lexeme_of_parse_atom`). If this
is a bare atom, then the text of the atom is bare (`isBare_of_mem_lexemes`). If it is in quotes,
then the atom is shorter than the text, since escapes only make a text longer (`Spells.length_le`).
-/

namespace TermRules.Sexp

open Text

/-! ## Lengths -/

/-- What stands between two quotes is no longer when it is read. -/
theorem Spells.length_le {body content : List Char} (h : Spells body content) :
    content.length ≤ body.length := by
  induction h with
  | nil => exact le_rfl
  | plain _ _ ih =>
    simp only [List.length_cons]
    omega
  | escape _ _ ih =>
    simp only [List.length_cons]
    omega

theorem length_lt_length_inQuotes {body content : List Char} (h : Spells body content) :
    content.length < (inQuotes body).length := by
  have := h.length_le
  simp only [inQuotes, List.length_cons, List.length_append, List.length_nil]
  omega

theorem quote_ne (text : List Char) : quote text ≠ text := by
  intro h
  have hlength := length_lt_length_inQuotes (spells_of_decode (decode_encode 0 text))
  rw [show inQuotes (encode text) = text from h] at hlength
  exact Nat.lt_irrefl _ hlength

/-! ## Texts that read as an atom -/

theorem exists_lexeme_of_parse_atom {text content : String}
    (h : parse text = .ok (.atom content)) :
    ∃ l ∈ lexemes text, l.token = .atom content.toList ∨
      ∃ quoted, l.token = .quoted quoted ∧ unquote quoted = .ok content := by
  have hitems : items text = [Sexp.atom content].map .ok := parse_eq_ok_iff.mp h
  have hderives := (denotes_of_items hitems).derives
  have hmem : ∀ l ∈ solid (lexemes text), l ∈ lexemes text := fun l hl => (List.mem_filter.mp hl).1
  generalize solid (lexemes text) = ls at hderives hmem
  cases hderives with
  | @atom l _ _ _ hl _ =>
    refine ⟨l, hmem l List.mem_cons_self, .inl ?_⟩
    rw [hl, String.toList_ofList]
  | @quoted l _ _ quoted _ hl hcontent _ =>
    exact ⟨l, hmem l List.mem_cons_self, .inr ⟨quoted, hl, hcontent⟩⟩

section Lexemes

variable {text : String} {l : Lexeme} (hl : l ∈ lexemes text) {cs : List Char}

include hl

/-- Each lexeme of a text is the longest that can stand at its place. -/
theorem exists_isLongest_of_mem_lexemes : ∃ rest, l.IsLongest rest := by
  obtain ⟨before, after, hsplit⟩ := List.append_of_mem hl
  exact ⟨_, isLongest_of_scan hsplit⟩

/-- A bare atom is bare. -/
theorem isBare_of_mem_lexemes (hatom : l.token = .atom cs) : isBare cs = true := by
  obtain ⟨rest, hlongest⟩ := exists_isLongest_of_mem_lexemes hl
  cases hlongest with
  | token h htext =>
    obtain rfl := htext cs (.inl hatom)
    cases hatom
    obtain ⟨c, ds, rfl, hc, hds⟩ := mem_runs.mp h.mem
    simpa [isBare, hc] using hds
  | quote => cases hatom
  | white => cases hatom

/-- What is in quotes is longer than what it denotes. -/
theorem length_lt_of_mem_lexemes {content : String} (hquoted : l.token = .quoted cs)
    (hcontent : unquote cs = .ok content) : content.toList.length < text.toList.length := by
  obtain ⟨rest, hlongest⟩ := exists_isLongest_of_mem_lexemes hl
  obtain ⟨htext, body, -, rfl⟩ := hlongest.of_quoted hquoted
  obtain ⟨before, after, hsplit, -⟩ := standsIn_of_mem_lexemes hl
  have hlength := length_lt_length_inQuotes (unquote_eq_ok_iff.mp hcontent)
  rw [hsplit, htext]
  simp only [List.length_append]
  omega

end Lexemes

/-- A text reads as the atom with this text just if it is bare. -/
theorem parse_eq_atom_self_iff {text : String} :
    parse text = .ok (.atom text) ↔ isBare text.toList = true := by
  constructor
  · intro h
    obtain ⟨l, hl, hatom | ⟨quoted, hquoted, hcontent⟩⟩ := exists_lexeme_of_parse_atom h
    · exact isBare_of_mem_lexemes hl hatom
    · exact absurd (length_lt_of_mem_lexemes hl hquoted hcontent) (Nat.lt_irrefl _)
  · intro h
    have hprint : (atom text).print = text := by
      rw [print, chars, writeAtom, if_pos h, String.ofList_toList]
    have hparse := parse_print_of_depth_le (x := .atom text) (Nat.zero_le _)
    rwa [hprint] at hparse

/-- **When an atom is written without quotes.** An atom is printed as its bare text just if this
text reads as that atom, and otherwise it is printed in quotes. -/
theorem print_atom_eq_iff (text : String) :
    ((atom text).print = text ↔ parse text = .ok (.atom text)) ∧
      ((atom text).print = String.ofList (quote text.toList) ↔ parse text ≠ .ok (.atom text)) := by
  have hquote : String.ofList (quote text.toList) ≠ text := by
    intro h
    apply quote_ne text.toList
    rw [← String.toList_ofList (l := quote text.toList), h]
  rw [ne_eq, parse_eq_atom_self_iff, print, chars, writeAtom]
  by_cases hbare : isBare text.toList = true
  · rw [if_pos hbare, String.ofList_toList]
    exact ⟨iff_of_true rfl hbare, iff_of_false hquote.symm (not_not_intro hbare)⟩
  · rw [if_neg hbare]
    exact ⟨iff_of_false hquote hbare, iff_of_true rfl hbare⟩

/-- A backslash needs no quotes, a line feed does. -/
example : (atom "a\\n").print = "a\\n" ∧ (atom "a\n").print = "\"a\\n\"" := by
  cbv

end TermRules.Sexp

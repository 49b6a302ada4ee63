import TermRules.Proofs.Sexp.Layout
import TermRules.Proofs.Sexp.Regular

/-!
# Lexemes tile a text

The lexemes of a text cover it from its start to its end (`Tiles`): each of them starts where the
one before it ends, none is empty, and they begin and end between characters. Two bare atoms are
never next to each other (`isChain_scan_isAtom`), and each lexeme is the longest token that stands
at its place, or what the scanner takes where there is no token (`isLongest_of_scan`).

Coverage is a matter of the lengths of lexemes alone: a lexeme starts behind the characters of those
before it (`start_of_scan`), and the characters of all lexemes are the text (`scan_text`).
-/

namespace TermRules.Sexp

open Text

/-! ## Offsets -/

theorem utf8ByteSize_eq (text : String) : text.utf8ByteSize = utf8Length text.toList := by
  have hlength : ∀ cs : List Char, String.utf8Len cs = utf8Length cs := by
    intro cs
    induction cs with
    | nil => rfl
    | cons c cs ih => simp [ih, Nat.add_comm]
  rw [← hlength, ← String.utf8ByteSize_ofList, String.ofList_toList]

/-- Between two parts of a text no character is cut. -/
theorem isValid_utf8Length {text : String} {before after : List Char}
    (h : text.toList = before ++ after) : String.Pos.Raw.IsValid text ⟨utf8Length before⟩ := by
  rw [String.Pos.Raw.isValid_iff_exists_append]
  refine ⟨String.ofList before, String.ofList after, ?_, ?_⟩
  · rw [← String.ofList_append, ← h, String.ofList_toList]
  · apply String.Pos.Raw.ext
    rw [String.byteIdx_rawEndPos, utf8ByteSize_eq, String.toList_ofList]

theorem Lexeme.StandsIn.isValid {l : Lexeme} {text : String} (h : l.StandsIn text) :
    String.Pos.Raw.IsValid text ⟨l.start⟩ ∧ String.Pos.Raw.IsValid text ⟨l.stop⟩ := by
  obtain ⟨before, after, htext, hstart⟩ := h
  refine ⟨?_, ?_⟩
  · rw [hstart]
    exact isValid_utf8Length htext
  · rw [Lexeme.stop, hstart, ← utf8Length_append]
    rw [← List.append_assoc] at htext
    exact isValid_utf8Length htext

/-! ## Neighbours -/

section Scan

variable {pos : Nat} {cs : List Char} {before after : List Lexeme} {l : Lexeme}

theorem start_of_mem_head?_scan (h : l ∈ (scan pos cs).head?) : l.start = pos := by
  cases cs with
  | nil => simp [scan] at h
  | cons c cs =>
    rw [scan_cons] at h
    cases h
    rfl

/-- A lexeme starts behind the characters of the lexemes before it. -/
theorem start_of_scan (h : scan pos cs = before ++ l :: after) :
    l.start = pos + utf8Length (charsOf before) := by
  have hhead : l ∈ (scan (pos + utf8Length (charsOf before)) (charsOf (l :: after))).head? := by
    rw [scan_charsOf h]
    rfl
  exact start_of_mem_head?_scan hhead

theorem isChain_scan (pos : Nat) (cs : List Char) :
    (scan pos cs).IsChain fun l m => m.start = l.stop := by
  fun_induction scan pos cs with
  | case1 => exact .nil
  | case2 pos c cs first ih => exact ih.cons fun m hm => start_of_mem_head?_scan hm

theorem stop_of_mem_getLast?_scan (h : l ∈ (scan pos cs).getLast?) :
    l.stop = pos + utf8Length cs := by
  obtain ⟨before, hbefore⟩ := List.getLast?_eq_some_iff.mp h
  have hchars : charsOf before ++ l.text = cs := by
    rw [← scan_text pos cs, hbefore, ← charsOf, charsOf_append]
    simp [charsOf]
  rw [Lexeme.stop, start_of_scan hbefore, ← hchars, utf8Length_append, Nat.add_assoc]

theorem start_lt_stop_of_mem_scan (h : l ∈ scan pos cs) : l.start < l.stop := by
  obtain ⟨before, after, hsplit⟩ := List.append_of_mem h
  obtain ⟨c, ds, hcs⟩ := List.exists_cons_of_ne_nil (text_ne_nil_of_scan (scan_charsOf hsplit))
  have hsize := c.utf8Size_pos
  rw [Lexeme.stop, hcs, utf8Length_cons]
  omega

/-- Each lexeme is the longest that the text behind the ones before it allows. -/
theorem isLongest_of_scan (h : scan pos cs = before ++ l :: after) :
    l.IsLongest (charsOf after) := by
  obtain ⟨c, ds, -, rfl, hrest, -⟩ := scan_eq_cons (scan_charsOf h)
  rw [← hrest]
  exact isLongest_cut _ c ds

end Scan

/-! ## Bare atoms -/

/-- The lexeme is a bare atom. -/
def Lexeme.IsAtom (l : Lexeme) : Prop := ∃ text, l.token = .atom text

/-- A bare atom starts with one of its characters and ends in front of any other. -/
theorem of_cut_atom {c : Char} {cs text : List Char} (h : (cut c cs).token = .atom text) :
    isBareChar c = true ∧ EndsAtom (cut c cs).rest := by
  have htoken : (cut c cs).IsToken := isToken_cut (by simp [h])
  have hchars := cut_append c cs
  generalize cut c cs = k at h htoken hchars
  cases htoken with
  | atom hc _ hrest =>
    cases hchars
    exact ⟨hc, hrest⟩
  | _ => cases h

theorem isChain_scan_isAtom (pos : Nat) (cs : List Char) :
    (scan pos cs).IsChain fun l m => ¬(l.IsAtom ∧ m.IsAtom) := by
  fun_induction scan pos cs with
  | case1 => exact .nil
  | case2 pos c cs first ih =>
    refine ih.cons fun m hm hatoms => ?_
    obtain ⟨⟨text, htext⟩, ⟨text', htext'⟩⟩ := hatoms
    have hends : EndsAtom first.rest := (of_cut_atom htext).2
    cases hrest : first.rest with
    | nil => simp [hrest, scan] at hm
    | cons d ds =>
      rw [hrest, scan_cons] at hm
      cases hm
      have hd : isBareChar d = false := hends d (by rw [hrest]; rfl)
      rw [(of_cut_atom htext').1] at hd
      cases hd

/-! ## Whole texts -/

/-- The lexemes cover the text without gaps or overlaps, and without cutting a character. -/
structure Tiles (ls : List Lexeme) (text : String) : Prop where
  chars : charsOf ls = text.toList
  first : ∀ l ∈ ls.head?, l.start = 0
  adjacent : ls.IsChain fun l m => m.start = l.stop
  last : ∀ l ∈ ls.getLast?, l.stop = text.utf8ByteSize
  nonempty : ∀ l ∈ ls, l.start < l.stop
  boundaries : ∀ l ∈ ls,
    String.Pos.Raw.IsValid text ⟨l.start⟩ ∧ String.Pos.Raw.IsValid text ⟨l.stop⟩

theorem tiles_lexemes (text : String) : Tiles (lexemes text) text where
  chars := scan_text 0 _
  first _ hl := start_of_mem_head?_scan hl
  adjacent := isChain_scan 0 _
  last _ hl := by rw [stop_of_mem_getLast?_scan hl, Nat.zero_add, utf8ByteSize_eq]
  nonempty _ hl := start_lt_stop_of_mem_scan hl
  boundaries _ hl := (standsIn_of_mem_lexemes hl).isValid

/-- **Tiling.** The lexemes of a text tile it, no two bare atoms are next to each other, and each
lexeme is the longest token at its place, or what is taken where there is no token: a quote with
what could stand behind it, or a single character of white space that is no layout. -/
theorem lexemes_tile (text : String) :
    Tiles (lexemes text) text ∧
      ((lexemes text).IsChain fun l m => ¬(l.IsAtom ∧ m.IsAtom)) ∧
      ∀ before l after, lexemes text = before ++ l :: after → l.IsLongest (charsOf after) :=
  ⟨tiles_lexemes text, isChain_scan_isAtom 0 _, fun _ _ _ h => isLongest_of_scan h⟩

/-- A text in which a quote is never closed, since no escape goes over a line feed. -/
def unterminated : String := "\"a\\\n b"

theorem lexemes_tile_unterminated :
    lexemes unterminated = [⟨.invalid, 0, ['"', 'a']⟩, ⟨.atom ['\\'], 2, ['\\']⟩,
        ⟨.blank, 3, ['\n', ' ']⟩, ⟨.atom ['b'], 5, ['b']⟩] ∧
      Lexeme.IsLongest ['\\', '\n', ' ', 'b'] ⟨.invalid, 0, ['"', 'a']⟩ := by
  have hlexemes : lexemes unterminated = [⟨.invalid, 0, ['"', 'a']⟩, ⟨.atom ['\\'], 2, ['\\']⟩,
      ⟨.blank, 3, ['\n', ' ']⟩, ⟨.atom ['b'], 5, ['b']⟩] := by
    cbv
  exact ⟨hlexemes, (lexemes_tile unterminated).2.2 [] _ _ hlexemes⟩

end TermRules.Sexp

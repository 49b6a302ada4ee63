import TermRules.Proofs.Outcome
import TermRules.Sexp.Token

/-!
# Texts in quotes

`Spells body content` says what the text between two quotes stands for: a backslash starts one of
the four `escapes`, and every other character stands for itself. Reading between quotes finds just
this (`decode_eq_ok_iff`), and fails at the first backslash that starts no escape
(`decode_eq_error_iff`). Since the scanner gives a text in quotes with both of its quotes
(`exists_body_of_mem_scan`), the atom that such a lexeme denotes is the one that the text between
its quotes spells (`unquote_eq_ok_iff`).
-/

namespace TermRules.Sexp

open Text

/-! ## Escapes -/

/-- The escapes: each letter that may follow a backslash, with the character that is meant. -/
def escapes : List (Char × Char) := [('"', '"'), ('\\', '\\'), ('n', '\n'), ('t', '\t')]

/-- The text `body` between two quotes stands for the text `content`. -/
inductive Spells : List Char → List Char → Prop
  | nil : Spells [] []
  | plain {c body content} (hc : c ≠ '\\') (h : Spells body content) :
    Spells (c :: body) (c :: content)
  | escape {letter c body content} (hletter : (letter, c) ∈ escapes) (h : Spells body content) :
    Spells ('\\' :: letter :: body) (c :: content)

theorem escapedBy?_eq_some_iff {letter c : Char} :
    escapedBy? letter = some c ↔ (letter, c) ∈ escapes := by
  constructor
  · intro h
    simp only [escapedBy?] at h
    split at h <;> cases h <;> simp [escapes]
  · intro h
    simp only [escapes, List.mem_cons, Prod.mk.injEq, List.not_mem_nil, or_false] at h
    rcases h with ⟨rfl, rfl⟩ | ⟨rfl, rfl⟩ | ⟨rfl, rfl⟩ | ⟨rfl, rfl⟩ <;> rfl

theorem utf8Size_of_mem_escapes {letter c : Char} (h : (letter, c) ∈ escapes) :
    letter.utf8Size = 1 := by
  simp only [escapes, List.mem_cons, Prod.mk.injEq, List.not_mem_nil, or_false] at h
  rcases h with ⟨rfl, -⟩ | ⟨rfl, -⟩ | ⟨rfl, -⟩ | ⟨rfl, -⟩ <;> rfl

/-! ## Reading between quotes -/

/-- A character with which neither a last backslash nor a backslash in front of a letter starts is
no backslash. -/
theorem ne_backslash_of_forall {c : Char} {rest : List Char}
    (hlast : c = '\\' → rest = [] → False)
    (hescape : ∀ letter after, c = '\\' → rest = letter :: after → False) : c ≠ '\\' := by
  rintro rfl
  cases rest with
  | nil => exact hlast rfl rfl
  | cons letter after => exact hescape letter after rfl rfl

theorem spells_of_decode {offset : Nat} {body content : List Char}
    (h : decode offset body = .ok content) : Spells body content := by
  fun_induction decode offset body generalizing content with
  | case1 =>
    cases h
    exact .nil
  | case2 => cases h
  | case3 offset letter rest c hc ih =>
    obtain ⟨tail, htail, rfl⟩ := map_eq_ok.mp h
    exact .escape (escapedBy?_eq_some_iff.mp hc) (ih htail)
  | case4 => cases h
  | case5 offset c rest hlast hescape ih =>
    obtain ⟨tail, htail, rfl⟩ := map_eq_ok.mp h
    exact .plain (ne_backslash_of_forall hlast hescape) (ih htail)

/-- Behind a text without unknown escapes, the reading goes on. -/
theorem decode_append_of_spells {body content : List Char} (h : Spells body content) (offset : Nat)
    (rest : List Char) :
    decode offset (body ++ rest) =
      (decode (offset + utf8Length body) rest).map (content ++ ·) := by
  induction h generalizing offset with
  | nil =>
    rw [List.nil_append, utf8Length_nil, Nat.add_zero]
    cases decode offset rest <;> rfl
  | @plain c body content hc _ ih =>
    rw [List.cons_append, decode.eq_4, ih, utf8Length_cons, Nat.add_assoc]
    · cases decode (offset + (c.utf8Size + utf8Length body)) rest <;> rfl
    · exact fun e => absurd e hc
    · exact fun _ _ e => absurd e hc
  | @escape letter c body content hletter _ ih =>
    have hsize : utf8Length ('\\' :: letter :: body) = 2 + utf8Length body := by
      rw [utf8Length_cons, utf8Length_cons, utf8Size_of_mem_escapes hletter, ← Nat.add_assoc]
      rfl
    rw [List.cons_append, List.cons_append, decode, escapedBy?_eq_some_iff.mpr hletter, hsize,
      ← Nat.add_assoc]
    simp only [ih]
    cases decode (offset + 2 + utf8Length body) rest <;> rfl

theorem decode_of_spells {body content : List Char} (h : Spells body content) (offset : Nat) :
    decode offset body = .ok content := by
  have hdecode := decode_append_of_spells h offset []
  rw [List.append_nil] at hdecode
  rw [hdecode, decode, Except.map, List.append_nil]

theorem decode_eq_ok_iff {offset : Nat} {body content : List Char} :
    decode offset body = .ok content ↔ Spells body content :=
  ⟨spells_of_decode, fun h => decode_of_spells h offset⟩

/-- No escape starts behind a backslash in front of the text. -/
def EscapesNothing (rest : List Char) : Prop :=
  ∀ letter ∈ rest.head?, ∀ c, (letter, c) ∉ escapes

theorem decode_of_escapesNothing {rest : List Char} (h : EscapesNothing rest) (offset : Nat) :
    decode offset ('\\' :: rest) = .error offset := by
  cases rest with
  | nil => rfl
  | cons letter rest =>
    rw [decode]
    split
    next c hc => exact absurd (escapedBy?_eq_some_iff.mp hc) (h letter rfl c)
    next => rfl

/-- Reading between quotes fails at the first backslash that starts no escape. -/
theorem decode_eq_error_iff {offset pos : Nat} {body : List Char} :
    decode offset body = .error pos ↔
      ∃ plain content rest, body = plain ++ '\\' :: rest ∧ Spells plain content ∧
        EscapesNothing rest ∧ pos = offset + utf8Length plain := by
  constructor
  · intro h
    fun_induction decode offset body with
    | case1 => cases h
    | case2 offset =>
      cases h
      exact ⟨[], [], [], rfl, .nil, by simp [EscapesNothing], rfl⟩
    | case3 offset letter rest c hc ih =>
      have hletter := escapedBy?_eq_some_iff.mp hc
      obtain ⟨plain, content, after, rfl, hplain, hafter, rfl⟩ := ih (map_eq_error.mp h)
      refine ⟨'\\' :: letter :: plain, c :: content, after, rfl, .escape hletter hplain, hafter, ?_⟩
      rw [utf8Length_cons, utf8Length_cons, utf8Size_of_mem_escapes hletter,
        show '\\'.utf8Size = 1 from rfl]
      omega
    | case4 offset letter rest hnone =>
      cases h
      refine ⟨[], [], letter :: rest, rfl, .nil, fun letter' hletter c hc => ?_, rfl⟩
      cases hletter
      rw [escapedBy?_eq_some_iff.mpr hc] at hnone
      cases hnone
    | case5 offset c rest hlast hescape ih =>
      obtain ⟨plain, content, after, rfl, hplain, hafter, rfl⟩ := ih (map_eq_error.mp h)
      have hc := ne_backslash_of_forall hlast hescape
      refine ⟨c :: plain, c :: content, after, rfl, .plain hc hplain, hafter, ?_⟩
      rw [utf8Length_cons]
      omega
  · rintro ⟨plain, content, rest, rfl, hplain, hrest, rfl⟩
    rw [decode_append_of_spells hplain, decode_of_escapesNothing hrest]
    rfl

/-! ## Lexemes in quotes -/

/-- The text `body` in quotes. -/
def inQuotes (body : List Char) : List Char := '"' :: (body ++ ['"'])

theorem interior_inQuotes (body : List Char) : interior (inQuotes body) = body := by
  simp [inQuotes, interior]

theorem unquote_eq_ok_iff {body : List Char} {content : String} :
    unquote (inQuotes body) = .ok content ↔ Spells body content.toList := by
  rw [unquote, interior_inQuotes, map_eq_ok, ← @decode_eq_ok_iff 1]
  constructor
  · rintro ⟨content, h, rfl⟩
    rw [h, String.toList_ofList]
  · intro h
    exact ⟨content.toList, h, String.ofList_toList⟩

theorem unquote_eq_error_iff {body : List Char} {offset : Nat} :
    unquote (inQuotes body) = .error offset ↔ decode 1 body = .error offset := by
  rw [unquote, interior_inQuotes, map_eq_error]

theorem exists_body_of_cut {c : Char} {cs text : List Char}
    (h : (cut c cs).token = .quoted text) : ∃ body, text = inQuotes body := by
  unfold cut at h
  split at h
  · cases h
  split at h
  · cases h
  split at h
  · simp only [cutQuoted] at h
    split at h
    next body rest hsplit =>
      cases h
      exact ⟨body, rfl⟩
    next => cases h
  split at h
  · cases h
  split at h
  · cases h
  split at h
  · cases h
  · cases h

theorem exists_body_of_mem_scan {start : Nat} {cs : List Char} {l : Lexeme}
    (hl : l ∈ scan start cs) {text : List Char} (h : l.token = .quoted text) :
    ∃ body, text = inQuotes body := by
  fun_induction scan start cs with
  | case1 => cases hl
  | case2 start c cs first ih =>
    rcases List.mem_cons.mp hl with rfl | hl
    · exact exists_body_of_cut h
    · exact ih hl

end TermRules.Sexp

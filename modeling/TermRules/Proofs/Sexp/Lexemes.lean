import TermRules.Sexp.Printer
import TermRules.Proofs.Sexp.Reading

/-!
# The lexemes of a written form

The scanner finds in the written form of an S-expression just the lexemes that the printer put
there: the parentheses and one lexeme for each atom, bare or in quotes, at the offsets that the
lengths of the written forms before it give (`Sexp.writtenLexemes`). What separates two lexemes is
the quote or the parenthesis between them, or the blank that the printer writes between two
members; so the statement for an S-expression in front of any further text
(`solid_scan_chars`) asks of that text only that it does not go on with a character of a bare atom
(`EndsAtom`).
-/

namespace TermRules.Sexp

open Text

/-! ## Cutting off one lexeme -/

/-- A text in front of which a bare atom ends. -/
def EndsAtom (rest : List Char) : Prop := ∀ c ∈ rest.head?, isBareChar c = false

theorem endsAtom_nil : EndsAtom [] := by simp [EndsAtom]

theorem endsAtom_cons {c : Char} (h : isBareChar c = false) (rest : List Char) :
    EndsAtom (c :: rest) := by
  simp [EndsAtom, h]

/-- The characters of bare atoms are none of those at which the scanner starts another lexeme. -/
theorem of_isBareChar {c : Char} (h : isBareChar c = true) :
    c ≠ '(' ∧ c ≠ ')' ∧ c ≠ '"' ∧ c ≠ ';' ∧ isWhite c = false ∧ isLayout c = false := by
  simp only [isBareChar, Bool.not_eq_true', Bool.or_eq_false_iff, beq_eq_false_iff_ne] at h
  obtain ⟨⟨⟨⟨hwhite, hopen⟩, hclose⟩, hsemicolon⟩, hquote⟩ := h
  refine ⟨hopen, hclose, hquote, hsemicolon, hwhite, ?_⟩
  cases hlayout : isLayout c with
  | false => rfl
  | true => exact absurd (isWhite_of_isLayout hlayout) (by simp [hwhite])

theorem takeWhile_append_endsAtom {cs rest : List Char} (hcs : cs.all isBareChar = true)
    (hrest : EndsAtom rest) :
    (cs ++ rest).takeWhile isBareChar = cs ∧ (cs ++ rest).dropWhile isBareChar = rest := by
  rw [List.all_eq_true] at hcs
  rw [List.takeWhile_append_of_pos hcs, List.dropWhile_append_of_pos hcs]
  cases rest with
  | nil => simp
  | cons d rest =>
    have hd : isBareChar d = false := hrest d rfl
    simp [hd]

theorem cut_bare {c : Char} {cs rest : List Char} (hc : isBareChar c = true)
    (hcs : cs.all isBareChar = true) (hrest : EndsAtom rest) :
    cut c (cs ++ rest) = ⟨.atom (c :: cs), c :: cs, rest⟩ := by
  obtain ⟨hopen, hclose, hquote, hsemicolon, hwhite, hlayout⟩ := of_isBareChar hc
  obtain ⟨htake, hdrop⟩ := takeWhile_append_endsAtom hcs hrest
  simp [cut, cutRun, hopen, hclose, hquote, hsemicolon, hwhite, hlayout, htake, hdrop]

/-- The quote behind a text within quotes is the first that the scanner does not take for an
escaped one. -/
theorem splitBody_encode (text rest : List Char) :
    splitBody (encode text ++ '"' :: rest) = (encode text, '"' :: rest) := by
  induction text with
  | nil => simp [encode, splitBody]
  | cons c text ih =>
    rw [show encode (c :: text) = encodeChar c ++ encode text from rfl, List.append_assoc]
    by_cases hc : escapeLetter? c = none
    · have hbackslash : c ≠ '\\' := ne_backslash_of_escapeLetter? hc
      have hquote : c ≠ '"' := by
        rintro rfl
        simp [escapeLetter?] at hc
      rw [show encodeChar c = [c] by simp [encodeChar, hc], List.singleton_append,
        List.singleton_append, splitBody.eq_4, if_neg hquote, ih]
      · exact fun e _ => hbackslash e
      · exact fun _ _ e _ => hbackslash e
    · obtain ⟨letter, hletter⟩ := Option.ne_none_iff_exists'.mp hc
      have hfeed : letter ≠ '\n' := by
        rintro rfl
        have := escapedBy?_of_escapeLetter? hletter
        simp [escapedBy?] at this
      rw [show encodeChar c = ['\\', letter] by simp [encodeChar, hletter]]
      simp only [List.cons_append, List.nil_append, splitBody, if_neg hfeed, ih]

theorem cut_quote (text rest : List Char) :
    cut '"' (encode text ++ '"' :: rest) = ⟨.quoted (quote text), quote text, rest⟩ := by
  simp only [cut, cutQuoted, splitBody_encode, quote]
  rfl

theorem cut_opening (cs : List Char) : cut '(' cs = ⟨.opening, ['('], cs⟩ := rfl

theorem cut_closing (cs : List Char) : cut ')' cs = ⟨.closing, [')'], cs⟩ := rfl

theorem cut_of_isLayout {c : Char} (hc : isLayout c = true) (cs : List Char) :
    cut c cs = ⟨.blank, c :: cs.takeWhile isLayout, cs.dropWhile isLayout⟩ := by
  have hne : ∀ d, isLayout d = false → c ≠ d := by
    rintro d hd rfl
    rw [hc] at hd
    cases hd
  rw [cut, if_neg (hne '(' (by decide)), if_neg (hne ')' (by decide)),
    if_neg (hne '"' (by decide)), if_neg (hne ';' (by decide)), if_pos hc, cutRun]

theorem scan_cons (start : Nat) (c : Char) (cs : List Char) :
    scan start (c :: cs) =
      ⟨(cut c cs).token, start, (cut c cs).text⟩ ::
        scan (start + utf8Length (cut c cs).text) (cut c cs).rest := by
  rw [scan]

/-- A layout character in front of a text only moves the offsets. -/
theorem solid_scan_cons_of_isLayout {c : Char} (hc : isLayout c = true) (start : Nat)
    (cs : List Char) :
    solid (scan start (c :: cs)) = solid (scan (start + c.utf8Size) cs) := by
  rw [scan_cons, cut_of_isLayout hc, solid_cons_of_eq rfl]
  cases cs with
  | nil => rfl
  | cons d ds =>
    -- The blank lexeme goes on with further layout, which would else be a lexeme of its own.
    cases hd : isLayout d with
    | true =>
      rw [scan_cons _ d, cut_of_isLayout hd, solid_cons_of_eq rfl, List.takeWhile_cons_of_pos hd,
        List.dropWhile_cons_of_pos hd, utf8Length_cons, Nat.add_assoc]
    | false =>
      rw [List.takeWhile_cons_of_neg (by simp [hd]), List.dropWhile_cons_of_neg (by simp [hd]),
        utf8Length_cons, utf8Length_nil, Nat.add_zero]

/-! ## Atoms -/

/-- The token of a written atom. -/
def atomToken (text : List Char) : Token :=
  if isBare text then .atom text else .quoted (quote text)

theorem atomToken_ne_blank (text : List Char) : atomToken text ≠ .blank := by
  unfold atomToken
  split <;> simp

/-- A written atom is one lexeme, whatever its text. -/
theorem scan_writeAtom (text : List Char) (start : Nat) {rest : List Char} (hrest : EndsAtom rest) :
    scan start (writeAtom text ++ rest) =
      ⟨atomToken text, start, writeAtom text⟩ ::
        scan (start + utf8Length (writeAtom text)) rest := by
  by_cases hbare : isBare text = true
  · have hall := hbare
    simp only [isBare, Bool.and_eq_true] at hall
    cases text with
    | nil => simp at hall
    | cons c cs =>
      obtain ⟨hc, hcs⟩ : isBareChar c = true ∧ cs.all isBareChar = true := by simpa using hall.2
      rw [writeAtom, if_pos hbare, List.cons_append, scan_cons, cut_bare hc hcs hrest, atomToken,
        if_pos hbare]
  · rw [writeAtom, if_neg hbare, atomToken, if_neg hbare,
      show quote text ++ rest = '"' :: (encode text ++ '"' :: rest) by simp [quote], scan_cons,
      cut_quote]

/-! ## S-expressions -/

mutual

/-- The lexemes, blanks apart, of the written form that starts at the byte `pos`. -/
def writtenLexemes (pos : Nat) : Sexp → List Lexeme
  | .atom text => [⟨atomToken text.toList, pos, writeAtom text.toList⟩]
  | .list members => ⟨.opening, pos, ['(']⟩ :: writtenMembers 0 (pos + 1) members

/-- The lexemes, blanks apart, of the written form of members up to the closing parenthesis, with
`gap` blanks before the first of them. -/
def writtenMembers (gap pos : Nat) : List Sexp → List Lexeme
  | [] => [⟨.closing, pos, [')']⟩]
  | x :: xs =>
    x.writtenLexemes (pos + gap) ++ writtenMembers 1 (pos + gap + utf8Length x.chars) xs

end

theorem endsAtom_restChars (xs : List Sexp) (rest : List Char) :
    EndsAtom (restChars xs ++ rest) := by
  cases xs with
  | nil => exact endsAtom_cons (by decide) _
  | cons x xs => exact endsAtom_cons (by decide) _

/-- What the scanner finds in the written form of `x`, in front of any text that ends an atom. -/
def ScansAsWritten (x : Sexp) : Prop :=
  ∀ (pos : Nat) (rest : List Char), EndsAtom rest →
    solid (scan pos (x.chars ++ rest)) =
      x.writtenLexemes pos ++ solid (scan (pos + utf8Length x.chars) rest)

theorem solid_scan_restChars {xs : List Sexp} (h : ∀ x ∈ xs, ScansAsWritten x) (pos : Nat)
    (rest : List Char) :
    solid (scan pos (restChars xs ++ rest)) =
      writtenMembers 1 pos xs ++ solid (scan (pos + utf8Length (restChars xs)) rest) := by
  induction xs generalizing pos with
  | nil =>
    rw [restChars, List.singleton_append, scan_cons, cut_closing, solid_cons_of_ne (by simp),
      writtenMembers, List.singleton_append]
  | cons x xs ih =>
    have hx := h x List.mem_cons_self (pos + 1) _ (endsAtom_restChars xs rest)
    rw [restChars, List.cons_append, List.append_assoc, solid_scan_cons_of_isLayout (by decide),
      show ' '.utf8Size = 1 from rfl, hx, ih (fun y hy => h y (List.mem_cons_of_mem _ hy)),
      writtenMembers, List.append_assoc]
    simp [Nat.add_assoc, show ' '.utf8Size = 1 from rfl]

theorem solid_scan_membersChars {xs : List Sexp} (h : ∀ x ∈ xs, ScansAsWritten x) (pos : Nat)
    (rest : List Char) :
    solid (scan pos (membersChars xs ++ rest)) =
      writtenMembers 0 pos xs ++ solid (scan (pos + utf8Length (membersChars xs)) rest) := by
  cases xs with
  | nil => exact solid_scan_restChars h pos rest
  | cons x xs =>
    have hx := h x List.mem_cons_self pos _ (endsAtom_restChars xs rest)
    rw [membersChars, List.append_assoc, hx,
      solid_scan_restChars (fun y hy => h y (List.mem_cons_of_mem _ hy)), writtenMembers,
      List.append_assoc]
    simp [Nat.add_assoc]

theorem solid_scan_chars (x : Sexp) : ScansAsWritten x := by
  induction x using Sexp.induction with
  | atom text =>
    intro pos rest hrest
    rw [chars, scan_writeAtom _ _ hrest, solid_cons_of_ne (atomToken_ne_blank _), writtenLexemes,
      List.singleton_append]
  | list members ih =>
    intro pos rest _
    rw [chars, List.cons_append, scan_cons, cut_opening, solid_cons_of_ne (by simp),
      solid_scan_membersChars ih, writtenLexemes, List.cons_append]
    simp [Nat.add_assoc, show '('.utf8Size = 1 from rfl]

theorem solid_lexemes_print (x : Sexp) : solid (lexemes x.print) = x.writtenLexemes 0 := by
  have h := solid_scan_chars x 0 [] endsAtom_nil
  simpa [lexemes, print, scan, solid] using h

end TermRules.Sexp

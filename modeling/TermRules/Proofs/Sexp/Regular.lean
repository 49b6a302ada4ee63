import Mathlib.Computability.Language
import TermRules.Proofs.Sexp.Escapes
import TermRules.Proofs.Sexp.Lexemes

/-!
# The regular expressions of tokens

Every kind of token has a regular expression, which is given here as a language
(`Token.language`). The scanner cuts off the longest text of these languages that stands at the
start of what is left of a text (`isLongest_cut`). Where there is none, it cuts off a quote with
the longest text that could stand behind it, or a single character of white space.

Two things make this so. The first character of a token tells its language
(`language_leading`), so that there is only one language to look at. And what the scanner takes
behind it is what the star of a class of characters, or of the units within quotes, can take at most
(`isLongestMatch_runs`, `isLongestMatch_bodies`).
-/

namespace TermRules.Sexp

open Text
open scoped Computability

/-! ## Languages -/

/-- The texts of a single character of the class `p`. -/
def oneOf (p : Char → Bool) : Language Char := {w | ∃ c, p c = true ∧ w = [c]}

/-- The texts of a character of the class `q` and any number of characters of the class `p`. -/
def runs (q p : Char → Bool) : Language Char := oneOf q * (oneOf p)∗

/-- What stands for one character within quotes, `[^"\\]|\\.`. -/
def bodyUnit : Language Char :=
  oneOf (fun c => c != '"' && c != '\\') + oneOf (· == '\\') * oneOf (· != '\n')

/-- The texts that may stand within quotes, `([^"\\]|\\.)*`. -/
def bodies : Language Char := bodyUnit∗

/-- The texts in quotes, `"([^"\\]|\\.)*"`. -/
def quotations : Language Char := oneOf (· == '"') * bodies * oneOf (· == '"')

/-- The texts of a kind of token: parentheses, bare atoms `[^\s();"]+`, texts in quotes, and blanks
`[ \t\r\n\f]+|;[^\n]*`. -/
def Token.language : Token → Language Char
  | .opening => oneOf (· == '(')
  | .closing => oneOf (· == ')')
  | .atom _ => runs isBareChar isBareChar
  | .quoted _ => quotations
  | .blank => runs isLayout isLayout + runs (· == ';') (· != '\n')
  | .invalid => 0

/-- A text of a star is empty, or starts with a text of the language. -/
theorem mem_kstar_iff {L : Language Char} {w : List Char} :
    w ∈ L∗ ↔ w = [] ∨ ∃ a ∈ L, ∃ b ∈ L∗, a ++ b = w := by
  rw [← Language.mem_mul, ← Language.mem_one, ← Language.mem_add,
    Language.one_add_self_mul_kstar_eq_kstar]

theorem mem_kstar_oneOf {p : Char → Bool} {w : List Char} :
    w ∈ (oneOf p)∗ ↔ ∀ c ∈ w, p c = true := by
  induction w with
  | nil => simp [Language.nil_mem_kstar]
  | cons c w ih =>
    rw [mem_kstar_iff, List.forall_mem_cons, ← ih]
    constructor
    · rintro (h | ⟨_, ⟨d, hd, rfl⟩, b, hb, h⟩)
      · cases h
      · cases h
        exact ⟨hd, hb⟩
    · rintro ⟨hc, hw⟩
      exact .inr ⟨[c], ⟨c, hc, rfl⟩, w, hw, rfl⟩

theorem mem_runs {q p : Char → Bool} {w : List Char} :
    w ∈ runs q p ↔ ∃ c cs, w = c :: cs ∧ q c = true ∧ ∀ d ∈ cs, p d = true := by
  rw [runs, Language.mem_mul]
  constructor
  · rintro ⟨_, ⟨c, hc, rfl⟩, cs, hcs, rfl⟩
    exact ⟨c, cs, rfl, hc, mem_kstar_oneOf.mp hcs⟩
  · rintro ⟨c, cs, rfl, hc, hcs⟩
    exact ⟨[c], ⟨c, hc, rfl⟩, cs, mem_kstar_oneOf.mpr hcs, rfl⟩

theorem mem_bodyUnit {w : List Char} :
    w ∈ bodyUnit ↔ (∃ c, c ≠ '"' ∧ c ≠ '\\' ∧ w = [c]) ∨ ∃ c, c ≠ '\n' ∧ w = ['\\', c] := by
  rw [bodyUnit, Language.mem_add, Language.mem_mul]
  constructor
  · rintro (⟨c, hc, rfl⟩ | ⟨_, ⟨b, hb, rfl⟩, _, ⟨c, hc, rfl⟩, rfl⟩)
    · simp only [Bool.and_eq_true, bne_iff_ne] at hc
      exact .inl ⟨c, hc.1, hc.2, rfl⟩
    · obtain rfl := beq_iff_eq.mp hb
      exact .inr ⟨c, bne_iff_ne.mp hc, rfl⟩
  · rintro (⟨c, hquote, hbackslash, rfl⟩ | ⟨c, hc, rfl⟩)
    · exact .inl ⟨c, by simp [hquote, hbackslash], rfl⟩
    · exact .inr ⟨['\\'], ⟨'\\', rfl, rfl⟩, [c], ⟨c, bne_iff_ne.mpr hc, rfl⟩, rfl⟩

theorem mem_bodies_iff {w : List Char} :
    w ∈ bodies ↔ w = [] ∨ (∃ c cs, c ≠ '"' ∧ c ≠ '\\' ∧ cs ∈ bodies ∧ w = c :: cs) ∨
      ∃ c cs, c ≠ '\n' ∧ cs ∈ bodies ∧ w = '\\' :: c :: cs := by
  rw [bodies, mem_kstar_iff, ← bodies]
  apply or_congr_right
  constructor
  · rintro ⟨a, ha, cs, hcs, rfl⟩
    rcases mem_bodyUnit.mp ha with ⟨c, hquote, hbackslash, rfl⟩ | ⟨c, hc, rfl⟩
    · exact .inl ⟨c, cs, hquote, hbackslash, hcs, rfl⟩
    · exact .inr ⟨c, cs, hc, hcs, rfl⟩
  · rintro (⟨c, cs, hquote, hbackslash, hcs, rfl⟩ | ⟨c, cs, hc, hcs, rfl⟩)
    · exact ⟨[c], mem_bodyUnit.mpr (.inl ⟨c, hquote, hbackslash, rfl⟩), cs, hcs, rfl⟩
    · exact ⟨['\\', c], mem_bodyUnit.mpr (.inr ⟨c, hc, rfl⟩), cs, hcs, rfl⟩

theorem mem_bodies_of_cons {c : Char} (hc : c ≠ '\\') {cs : List Char} (h : c :: cs ∈ bodies) :
    cs ∈ bodies := by
  rcases mem_bodies_iff.mp h with h | ⟨d, ds, -, -, hds, h⟩ | ⟨d, ds, -, -, h⟩
  · cases h
  · cases h
    exact hds
  · exact absurd (List.cons.inj h).1 hc

theorem exists_of_backslash_cons_mem_bodies {cs : List Char} (h : '\\' :: cs ∈ bodies) :
    ∃ c ds, cs = c :: ds ∧ ds ∈ bodies := by
  rcases mem_bodies_iff.mp h with h | ⟨d, ds, -, hd, -, h⟩ | ⟨d, ds, -, hds, h⟩
  · cases h
  · exact absurd (List.cons.inj h).1.symm hd
  · exact ⟨d, ds, (List.cons.inj h).2, hds⟩

theorem mem_quotations {w : List Char} :
    w ∈ quotations ↔ ∃ body ∈ bodies, w = inQuotes body := by
  rw [quotations, Language.mem_mul]
  constructor
  · rintro ⟨_, h, _, ⟨d, hd, rfl⟩, rfl⟩
    obtain ⟨_, ⟨c, hc, rfl⟩, body, hbody, rfl⟩ := Language.mem_mul.mp h
    obtain rfl := beq_iff_eq.mp hc
    obtain rfl := beq_iff_eq.mp hd
    exact ⟨body, hbody, rfl⟩
  · rintro ⟨body, hbody, rfl⟩
    exact ⟨'"' :: body, ⟨['"'], ⟨'"', rfl, rfl⟩, body, hbody, rfl⟩, ['"'], ⟨'"', rfl, rfl⟩, rfl⟩

/-! ## Longest matches -/

/-- The text `found` is the longest text of the language that stands in front of `found ++ rest`. -/
structure IsLongestMatch (L : Language Char) (found rest : List Char) : Prop where
  mem : found ∈ L
  length_le : ∀ w ∈ L, w <+: found ++ rest → w.length ≤ found.length

theorem isLongestMatch_oneOf {p : Char → Bool} {c : Char} (hc : p c = true) (rest : List Char) :
    IsLongestMatch (oneOf p) [c] rest := by
  refine ⟨⟨c, hc, rfl⟩, ?_⟩
  rintro _ ⟨d, -, rfl⟩ -
  exact le_rfl

theorem isLongestMatch_runs {q p : Char → Bool} {c : Char} (hc : q c = true) (cs : List Char) :
    IsLongestMatch (runs q p) (c :: cs.takeWhile p) (cs.dropWhile p) := by
  constructor
  · exact mem_runs.mpr ⟨c, _, rfl, hc, List.all_eq_true.mp List.all_takeWhile⟩
  · intro w hw hfront
    obtain ⟨d, ds, rfl, -, hds⟩ := mem_runs.mp hw
    rw [List.cons_append, List.takeWhile_append_dropWhile, List.cons_prefix_cons] at hfront
    obtain ⟨rest, rfl⟩ := hfront.2
    rw [List.takeWhile_append_of_pos hds]
    simp

theorem not_prefix_of_mem_runs {q p : Char → Bool} {c : Char} (hc : q c = false) {w cs : List Char}
    (hw : w ∈ runs q p) : ¬w <+: c :: cs := by
  obtain ⟨d, ds, rfl, hd, -⟩ := mem_runs.mp hw
  intro hfront
  obtain rfl := (List.cons_prefix_cons.mp hfront).1
  rw [hd] at hc
  cases hc

theorem IsLongestMatch.add {K L : Language Char} {found rest : List Char}
    (h : IsLongestMatch K found rest) (hL : ∀ w ∈ L, ¬w <+: found ++ rest) :
    IsLongestMatch (K + L) found rest := by
  refine ⟨.inl h.mem, fun w hw hfront => ?_⟩
  rcases hw with hw | hw
  · exact h.length_le w hw hfront
  · exact absurd hfront (hL w hw)

/-- Units within quotes are taken one after the other. -/
theorem splitBody_append_of_mem_bodies {w : List Char} (h : w ∈ bodies) (rest : List Char) :
    splitBody (w ++ rest) = (w ++ (splitBody rest).1, (splitBody rest).2) := by
  obtain ⟨units, rfl, hunits⟩ := Language.mem_kstar.mp h
  clear h
  induction units with
  | nil => rfl
  | cons unit units ih =>
    obtain ⟨hunit, htail⟩ := List.forall_mem_cons.mp hunits
    rw [List.flatten_cons, List.append_assoc]
    rcases mem_bodyUnit.mp hunit with ⟨c, hquote, hbackslash, rfl⟩ | ⟨c, hc, rfl⟩
    · rw [List.singleton_append, splitBody.eq_4, if_neg hquote, ih htail]
      · rfl
      · exact fun e _ => hbackslash e
      · exact fun _ _ e _ => hbackslash e
    · simp only [List.cons_append, List.nil_append, splitBody, if_neg hc, ih htail]

theorem splitBody_fst_mem_bodies (cs : List Char) : (splitBody cs).1 ∈ bodies := by
  have hnil : [] ∈ bodies := Language.nil_mem_kstar _
  fun_induction splitBody cs with
  | case1 => exact hnil
  | case2 => exact hnil
  | case3 => exact hnil
  | case4 c cs hc split ih => exact mem_bodies_iff.mpr (.inr (.inr ⟨c, split.1, hc, ih, rfl⟩))
  | case5 => exact hnil
  | case6 c cs hlast hescape hc split ih =>
    have hbackslash := ne_backslash_of_forall hlast hescape
    exact mem_bodies_iff.mpr (.inr (.inl ⟨c, split.1, hc, hbackslash, ih, rfl⟩))

theorem isLongestMatch_bodies (cs : List Char) :
    IsLongestMatch bodies (splitBody cs).1 (splitBody cs).2 := by
  refine ⟨splitBody_fst_mem_bodies cs, fun w hw hfront => ?_⟩
  rw [splitBody_append] at hfront
  obtain ⟨rest, rfl⟩ := hfront
  rw [splitBody_append_of_mem_bodies hw]
  simp

/-- A text in quotes goes up to the first quote that a body cannot take. -/
theorem splitBody_of_quotation_prefix {w cs : List Char} (hw : w ∈ quotations)
    (hfront : w <+: '"' :: cs) : ∃ body rest, w = inQuotes body ∧
      splitBody cs = (body, '"' :: rest) := by
  obtain ⟨body, hbody, rfl⟩ := mem_quotations.mp hw
  obtain ⟨rest, hrest⟩ := hfront
  obtain rfl : body ++ '"' :: rest = cs := by simpa [inQuotes] using hrest
  refine ⟨body, rest, rfl, ?_⟩
  rw [splitBody_append_of_mem_bodies hbody, splitBody.eq_4]
  all_goals simp

theorem isLongestMatch_quotations {cs body rest : List Char}
    (h : splitBody cs = (body, '"' :: rest)) :
    IsLongestMatch quotations (inQuotes body) rest := by
  have hbody : body ∈ bodies := by simpa [h] using splitBody_fst_mem_bodies cs
  have hcs : body ++ '"' :: rest = cs := by simpa [h] using splitBody_append cs
  refine ⟨mem_quotations.mpr ⟨body, hbody, rfl⟩, fun w hw hfront => ?_⟩
  have htext : inQuotes body ++ rest = '"' :: cs := by simp [inQuotes, ← hcs]
  rw [htext] at hfront
  obtain ⟨body', rest', rfl, h'⟩ := splitBody_of_quotation_prefix hw hfront
  cases h.symm.trans h'
  exact le_rfl

/-! ## The first character of a token -/

/-- A token of the kind that starts with the character, if there is one. -/
def leading (c : Char) : Token :=
  if c = '(' then .opening
  else if c = ')' then .closing
  else if c = '"' then .quoted []
  else if c = ';' then .blank
  else if isLayout c then .blank
  else if isWhite c then .invalid
  else .atom []

theorem leading_of_isBareChar {c : Char} (h : isBareChar c = true) : leading c = .atom [] := by
  obtain ⟨hopen, hclose, hquote, hsemicolon, hwhite, hlayout⟩ := of_isBareChar h
  simp [leading, hopen, hclose, hquote, hsemicolon, hwhite, hlayout]

theorem leading_of_isLayout {c : Char} (h : isLayout c = true) : leading c = .blank := by
  have hne : ∀ d, isLayout d = false → c ≠ d := by
    rintro d hd rfl
    rw [h] at hd
    cases hd
  rw [leading, if_neg (hne '(' (by decide)), if_neg (hne ')' (by decide)),
    if_neg (hne '"' (by decide)), if_neg (hne ';' (by decide)), if_pos h]

/-- The first character of a token tells its language. -/
theorem language_leading {token : Token} {w : List Char} (h : w ∈ token.language) :
    ∃ c cs, w = c :: cs ∧ (leading c).language = token.language := by
  cases token with
  | opening =>
    obtain ⟨c, hc, rfl⟩ := h
    obtain rfl := beq_iff_eq.mp hc
    exact ⟨'(', [], rfl, rfl⟩
  | closing =>
    obtain ⟨c, hc, rfl⟩ := h
    obtain rfl := beq_iff_eq.mp hc
    exact ⟨')', [], rfl, rfl⟩
  | atom _ =>
    obtain ⟨c, cs, rfl, hc, -⟩ := mem_runs.mp h
    exact ⟨c, cs, rfl, by rw [leading_of_isBareChar hc]; rfl⟩
  | quoted _ =>
    obtain ⟨body, -, rfl⟩ := mem_quotations.mp h
    exact ⟨'"', body ++ ['"'], rfl, rfl⟩
  | blank =>
    rcases h with h | h
    · obtain ⟨c, cs, rfl, hc, -⟩ := mem_runs.mp h
      exact ⟨c, cs, rfl, by rw [leading_of_isLayout hc]⟩
    · obtain ⟨c, cs, rfl, hc, -⟩ := mem_runs.mp h
      obtain rfl := beq_iff_eq.mp hc
      exact ⟨';', cs, rfl, rfl⟩
  | invalid => cases h

/-- No token of any kind stands at the start of the text. -/
def NoToken (cs : List Char) : Prop := ∀ token : Token, ∀ w ∈ token.language, ¬w <+: cs

/-- A token at the start of a text has the language that the first character tells. -/
theorem mem_language_leading {token : Token} {w : List Char} (h : w ∈ token.language) {c : Char}
    {cs : List Char} (hfront : w <+: c :: cs) : w ∈ (leading c).language := by
  obtain ⟨d, ds, rfl, hlanguage⟩ := language_leading h
  obtain rfl := (List.cons_prefix_cons.mp hfront).1
  rwa [hlanguage]

/-! ## What the scanner cuts off -/

/-- The lexeme is the longest token that stands in front of its characters and of `rest`. If there
is no token, then it is a quote with the longest text that could stand behind it, or a single
character of white space that is no layout. -/
inductive Lexeme.IsLongest (rest : List Char) : Lexeme → Prop
  | token {token pos text} (h : IsLongestMatch token.language text rest)
    (htext : ∀ cs, token = .atom cs ∨ token = .quoted cs → cs = text)
    (hothers : ∀ other : Token, ∀ w ∈ other.language, w <+: text ++ rest →
      w.length ≤ text.length) : IsLongest rest ⟨token, pos, text⟩
  | quote {pos body} (h : IsLongestMatch bodies body rest)
    (hnone : NoToken ('"' :: (body ++ rest))) : IsLongest rest ⟨.invalid, pos, '"' :: body⟩
  | white {pos c} (hwhite : isWhite c = true) (hlayout : isLayout c = false)
    (hnone : NoToken (c :: rest)) : IsLongest rest ⟨.invalid, pos, [c]⟩

theorem Lexeme.IsLongest.of_isLongestMatch {token : Token} {c : Char} {cs rest : List Char}
    (h : IsLongestMatch token.language (c :: cs) rest)
    (hlanguage : (leading c).language = token.language)
    (htext : ∀ ds, token = .atom ds ∨ token = .quoted ds → ds = c :: cs) (pos : Nat) :
    IsLongest rest ⟨token, pos, c :: cs⟩ := by
  refine .token h htext fun other w hw hfront => h.length_le w ?_ hfront
  rw [← hlanguage]
  exact mem_language_leading hw hfront

theorem isLongest_cutQuoted (pos : Nat) (cs : List Char) :
    Lexeme.IsLongest (cutQuoted cs).rest ⟨(cutQuoted cs).token, pos, (cutQuoted cs).text⟩ := by
  unfold cutQuoted
  split
  next body rest hsplit =>
    have h : IsLongestMatch (Token.quoted (inQuotes body)).language (inQuotes body) rest :=
      isLongestMatch_quotations hsplit
    exact .of_isLongestMatch h rfl (by simp [inQuotes]) pos
  next body rest hnot hsplit =>
    have hbody := isLongestMatch_bodies cs
    have hcs := splitBody_append cs
    rw [hsplit] at hbody hcs
    refine .quote hbody fun token w hw hfront => ?_
    rw [hcs] at hfront
    obtain ⟨_, rest', -, hsplit'⟩ :=
      splitBody_of_quotation_prefix (mem_language_leading hw hfront) hfront
    cases hsplit.symm.trans hsplit'
    exact hnot rest' rfl

/-- The scanner cuts off the longest token, or what it takes where there is none. -/
theorem isLongest_cut (pos : Nat) (c : Char) (cs : List Char) :
    Lexeme.IsLongest (cut c cs).rest ⟨(cut c cs).token, pos, (cut c cs).text⟩ := by
  unfold cut
  split
  next hc =>
    subst hc
    have h : IsLongestMatch Token.opening.language ['('] cs := isLongestMatch_oneOf rfl cs
    exact .of_isLongestMatch h rfl (by simp) pos
  split
  next hc =>
    subst hc
    have h : IsLongestMatch Token.closing.language [')'] cs := isLongestMatch_oneOf rfl cs
    exact .of_isLongestMatch h rfl (by simp) pos
  split
  next => exact isLongest_cutQuoted pos cs
  split
  next hc =>
    subst hc
    have h : IsLongestMatch Token.blank.language (';' :: cs.takeWhile (· != '\n'))
        (cs.dropWhile (· != '\n')) := by
      rw [Token.language, add_comm]
      exact (isLongestMatch_runs rfl cs).add fun w hw => not_prefix_of_mem_runs (by decide) hw
    exact .of_isLongestMatch h rfl (by simp) pos
  split
  next hsemicolon hc =>
    have h : IsLongestMatch Token.blank.language (c :: cs.takeWhile isLayout)
        (cs.dropWhile isLayout) :=
      (isLongestMatch_runs hc cs).add fun w hw => not_prefix_of_mem_runs (by simpa) hw
    exact .of_isLongestMatch h (by rw [leading_of_isLayout hc]) (by simp) pos
  split
  next hopen hclose hquote hsemicolon hlayout hwhite =>
    refine .white hwhite (by simpa using hlayout) fun token w hw hfront => ?_
    have hnone : leading c = .invalid := by
      simp [leading, hopen, hclose, hquote, hsemicolon, hlayout, hwhite]
    have hw' := mem_language_leading hw hfront
    rw [hnone] at hw'
    cases hw'
  next hopen hclose hquote hsemicolon hlayout hwhite =>
    have hc : isBareChar c = true := by
      simp [isBareChar, hopen, hclose, hquote, hsemicolon, hwhite]
    have h : IsLongestMatch (Token.atom (c :: cs.takeWhile isBareChar)).language
        (c :: cs.takeWhile isBareChar) (cs.dropWhile isBareChar) := isLongestMatch_runs hc cs
    exact .of_isLongestMatch h (by rw [leading_of_isBareChar hc]; rfl) (by simp) pos

/-! ## The characters of lexemes -/

section Characters

variable {rest : List Char} {l : Lexeme}

theorem Lexeme.IsLongest.text_mem_language (h : l.IsLongest rest) (hl : l.token ≠ .invalid) :
    l.text ∈ l.token.language := by
  cases h with
  | token h => exact h.mem
  | quote => exact absurd rfl hl
  | white => exact absurd rfl hl

/-- A lexeme of a kind of token that has a single text. -/
theorem Lexeme.IsLongest.text_of_oneOf (h : l.IsLongest rest) {token : Token} {c : Char}
    (hl : l.token = token) (hvalid : token ≠ .invalid)
    (hlanguage : token.language = oneOf (· == c)) : l.text = [c] := by
  have hmem := h.text_mem_language (hl ▸ hvalid)
  rw [hl, hlanguage] at hmem
  obtain ⟨d, hd, htext⟩ := hmem
  rw [htext, beq_iff_eq.mp hd]

/-- A lexeme in quotes consists of its quotes and of what may stand within quotes. -/
theorem Lexeme.IsLongest.of_quoted (h : l.IsLongest rest) {text : List Char}
    (hl : l.token = .quoted text) : l.text = text ∧ ∃ body ∈ bodies, text = inQuotes body := by
  cases h with
  | token h htext =>
    obtain rfl := htext text (.inr hl)
    cases hl
    exact ⟨rfl, mem_quotations.mp h.mem⟩
  | quote => cases hl
  | white => cases hl

end Characters

end TermRules.Sexp

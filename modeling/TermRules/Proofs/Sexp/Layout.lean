import TermRules.Proofs.Sexp.Lexemes
import TermRules.Proofs.Sexp.Placement
import TermRules.Proofs.Sexp.Recognition

/-!
# Layout between lexemes

The scanner goes from left to right, so that what follows a lexeme bears on it only where the lexeme
could go on: an atom goes on with characters of bare atoms, a comment up to the end of its line
(`Lexeme.EndsBefore`). Layout goes on too, but to no effect, since it is blank either way. So the
lexemes in front of a place stay if the text behind that place is exchanged for one in front of
which the last of them ends: `solid_scan_exchange`.

There are two uses of this. A gap (`IsGap`) is a run of layout characters, or a comment with the
line feed that ends it. An atom ends in front of it, a comment may go on but hides nothing
(`hidesNothing_gap`), and in front of a text a gap only moves the offsets (`solid_scan_gap`). So a
gap between two lexemes, or inside a run of layout characters, changes no tokens:
`tokens_insertGap`. And no lexeme goes on behind a line feed, so that the items of two texts that a
line feed joins are those of the texts: `items_line`.
-/

namespace TermRules.Sexp

open Text

/-! ## First tokens of texts -/

/-- A text that reaches, behind a quote, up to the next quote. -/
def IsBody (body : List Char) : Prop :=
  ∀ rest, splitBody (body ++ '"' :: rest) = (body, '"' :: rest)

/-- A text in front of which a comment ends. -/
def EndsLine (rest : List Char) : Prop := ∀ c ∈ rest.head?, c = '\n'

/-- The first token of a text, its characters, and a text in front of which it ends. -/
inductive Cut.IsToken : Cut → Prop
  | opening {rest} : IsToken ⟨.opening, ['('], rest⟩
  | closing {rest} : IsToken ⟨.closing, [')'], rest⟩
  | atom {c cs rest} (hc : isBareChar c = true) (hcs : cs.all isBareChar = true)
    (hrest : EndsAtom rest) : IsToken ⟨.atom (c :: cs), c :: cs, rest⟩
  | quoted {body rest} (h : IsBody body) : IsToken ⟨.quoted (inQuotes body), inQuotes body, rest⟩
  | layout {c cs rest} (h : ∀ d ∈ c :: cs, isLayout d = true) : IsToken ⟨.blank, c :: cs, rest⟩
  | comment {cs rest} (h : ∀ c ∈ cs, c ≠ '\n') (hrest : EndsLine rest) :
    IsToken ⟨.blank, ';' :: cs, rest⟩

theorem isBody_splitBody (cs : List Char) : IsBody (splitBody cs).1 := by
  intro rest
  fun_induction splitBody cs with
  | case1 => rfl
  | case2 => rfl
  | case3 => rfl
  | case4 c cs hc split ih => simp [splitBody, hc, split, ih]
  | case5 => rfl
  | case6 c cs hlast hescape hc split ih =>
    have hbackslash := ne_backslash_of_forall hlast hescape
    rw [List.cons_append, splitBody.eq_4, if_neg hc, ih]
    · exact fun e _ => hbackslash e
    · exact fun _ _ e _ => hbackslash e

theorem isToken_cutQuoted {cs : List Char} (h : (cutQuoted cs).token ≠ .invalid) :
    (cutQuoted cs).IsToken := by
  unfold cutQuoted at h ⊢
  have hbody := isBody_splitBody cs
  split
  next body rest hsplit =>
    rw [hsplit] at hbody
    exact .quoted hbody
  next hsplit =>
    simp only [hsplit] at h
    exact absurd rfl h

theorem forall_mem_takeWhile (p : Char → Bool) (cs : List Char) :
    ∀ c ∈ cs.takeWhile p, p c = true :=
  List.all_eq_true.mp List.all_takeWhile

theorem eq_false_of_head?_dropWhile {p : Char → Bool} {cs : List Char} {c : Char}
    (h : c ∈ (cs.dropWhile p).head?) : p c = false := by
  have hnot := List.head?_dropWhile_not p cs
  rwa [Option.mem_def.mp h] at hnot

/-- The first lexeme of a text is a token, or it is invalid. -/
theorem isToken_cut {c : Char} {cs : List Char} (h : (cut c cs).token ≠ .invalid) :
    (cut c cs).IsToken := by
  unfold cut at h ⊢
  split
  next hc => exact hc ▸ .opening
  split
  next hc => exact hc ▸ .closing
  split
  next hc =>
    simp only [*, if_true] at h
    exact isToken_cutQuoted h
  split
  next hc =>
    subst hc
    refine .comment (fun d hd => ?_) fun d hd => ?_
    · simpa using forall_mem_takeWhile _ _ d hd
    · simpa using eq_false_of_head?_dropWhile hd
  split
  next hc => exact .layout (List.forall_mem_cons.mpr ⟨hc, forall_mem_takeWhile _ _⟩)
  split
  next => simp [*] at h
  next hopen hclose hquote hsemicolon hlayout hwhite =>
    have hc : isBareChar c = true := by
      simp [isBareChar, hopen, hclose, hquote, hsemicolon, hwhite]
    exact .atom hc (List.all_eq_true.mpr (forall_mem_takeWhile _ _)) fun d hd =>
      eq_false_of_head?_dropWhile hd

/-! ## Texts behind comments -/

theorem scan_comment (pos : Nat) {body rest : List Char} (hbody : ∀ c ∈ body, c ≠ '\n')
    (hrest : EndsLine rest) :
    scan pos (';' :: (body ++ rest)) =
      ⟨.blank, pos, ';' :: body⟩ :: scan (pos + utf8Length (';' :: body)) rest := by
  have hbody' : ∀ c ∈ body, (c != '\n') = true := by simpa using hbody
  obtain ⟨htake, hdrop⟩ : rest.takeWhile (· != '\n') = [] ∧ rest.dropWhile (· != '\n') = rest := by
    cases rest with
    | nil => simp
    | cons d rest => simp [hrest d rfl]
  have hcut : cut ';' (body ++ rest) = ⟨.blank, ';' :: body, rest⟩ := by
    have hrun : cut ';' (body ++ rest) = cutRun (fun _ => .blank) (· != '\n') ';' (body ++ rest) :=
      rfl
    rw [hrun, cutRun, List.takeWhile_append_of_pos hbody', List.dropWhile_append_of_pos hbody',
      htake, hdrop, List.append_nil]
  rw [scan_cons, hcut]

/-- A comment that goes on in the text hides nothing but blanks of it. -/
def HidesNothing (rest : List Char) : Prop :=
  ∀ pos, solid (scan pos (';' :: rest)) = solid (scan (pos + 1) rest)

theorem hidesNothing_of_endsLine {rest : List Char} (h : EndsLine rest) : HidesNothing rest := by
  intro pos
  have hempty : ∀ c ∈ ([] : List Char), c ≠ '\n' := by simp
  have hscan := scan_comment pos hempty h
  rw [List.nil_append] at hscan
  rw [hscan, solid_cons_of_eq rfl]
  rfl

/-- The characters of a comment only move the offsets. -/
theorem solid_scan_comment (pos : Nat) {body : List Char} (hbody : ∀ c ∈ body, c ≠ '\n')
    (rest : List Char) :
    solid (scan pos (';' :: (body ++ rest))) =
      solid (scan (pos + utf8Length body) (';' :: rest)) := by
  have hsplit := List.takeWhile_append_dropWhile (p := (· != '\n')) (l := rest)
  have hline : ∀ c ∈ rest.takeWhile (· != '\n'), c ≠ '\n' := by
    simpa using forall_mem_takeWhile (· != '\n') rest
  have hends : EndsLine (rest.dropWhile (· != '\n')) := fun d hd => by
    simpa using eq_false_of_head?_dropWhile hd
  generalize rest.takeWhile (· != '\n') = line at hsplit hline
  generalize rest.dropWhile (· != '\n') = rest' at hsplit hends
  subst hsplit
  have hall : ∀ c ∈ body ++ line, c ≠ '\n' := List.forall_mem_append.mpr ⟨hbody, hline⟩
  rw [← List.append_assoc, scan_comment _ hall hends, scan_comment _ hline hends,
    solid_cons_of_eq rfl, solid_cons_of_eq rfl]
  simp only [utf8Length_cons, utf8Length_append]
  congr 2
  omega

theorem solid_scan_layout {cs : List Char} (h : ∀ c ∈ cs, isLayout c = true) (pos : Nat)
    (rest : List Char) :
    solid (scan pos (cs ++ rest)) = solid (scan (pos + utf8Length cs) rest) := by
  induction cs generalizing pos with
  | nil => rfl
  | cons c cs ih =>
    obtain ⟨hc, hcs⟩ := List.forall_mem_cons.mp h
    rw [List.cons_append, solid_scan_cons_of_isLayout hc, ih hcs, utf8Length_cons, Nat.add_assoc]

/-! ## What follows a lexeme -/

/-- The lexeme does not go on in the text, unless it is blank and hides nothing but blanks. -/
structure Lexeme.EndsBefore (l : Lexeme) (rest : List Char) : Prop where
  atom : ∀ text, l.token = .atom text → EndsAtom rest
  comment : l.text.head? = some ';' → HidesNothing rest

namespace Cut.IsToken

variable {k : Cut} (h : k.IsToken) (pos : Nat) {rest : List Char}

include h

/-- A lexeme ends in front of another text if atoms and comments do. -/
theorem endsBefore (hatom : EndsAtom k.rest → EndsAtom rest)
    (hcomment : EndsLine k.rest → HidesNothing rest) :
    Lexeme.EndsBefore ⟨k.token, pos, k.text⟩ rest := by
  constructor
  · intro text htext
    cases h with
    | atom _ _ hends => exact hatom hends
    | _ => cases htext
  · intro htext
    cases h with
    | comment _ hends => exact hcomment hends
    | atom hc => exact absurd htext (by simpa using (of_isBareChar hc).2.2.2.1)
    | layout h =>
      obtain rfl := Option.some.inj htext
      exact absurd (h ';' List.mem_cons_self) (by decide)
    | _ => simp [inQuotes] at htext

/-- A lexeme ends in front of any text that starts like the one that follows it. -/
theorem endsBefore_of_head?_eq (hrest : rest.head? = k.rest.head?) :
    Lexeme.EndsBefore ⟨k.token, pos, k.text⟩ rest :=
  h.endsBefore pos (fun hends c hc => hends c (hrest ▸ hc)) fun hends =>
    hidesNothing_of_endsLine fun c hc => hends c (hrest ▸ hc)

/-- A lexeme stays if it ends in front of another text. -/
theorem solid_scan (hends : Lexeme.EndsBefore ⟨k.token, pos, k.text⟩ rest) :
    solid (scan pos (k.text ++ rest)) =
      solid (⟨k.token, pos, k.text⟩ :: scan (pos + utf8Length k.text) rest) := by
  cases h with
  | opening => rw [List.singleton_append, scan_cons, cut_opening]
  | closing => rw [List.singleton_append, scan_cons, cut_closing]
  | atom hc hcs => rw [List.cons_append, scan_cons, cut_bare hc hcs (hends.atom _ rfl)]
  | @quoted body _ h =>
    have hcut : cut '"' (body ++ '"' :: rest) = ⟨.quoted (inQuotes body), inQuotes body, rest⟩ := by
      simp only [cut, cutQuoted, h rest]
      rfl
    rw [show inQuotes body ++ rest = '"' :: (body ++ '"' :: rest) by simp [inQuotes], scan_cons,
      hcut]
  | layout h => rw [solid_scan_layout h, solid_cons_of_eq rfl]
  | comment h =>
    rw [List.cons_append, solid_scan_comment _ h, hends.comment rfl, solid_cons_of_eq rfl,
      utf8Length_cons, show ';'.utf8Size = 1 from rfl, Nat.add_assoc, Nat.add_comm 1]

end Cut.IsToken

/-! ## What follows several lexemes -/

theorem solid_cons (l : Lexeme) (ls : List Lexeme) : solid (l :: ls) = solid [l] ++ solid ls :=
  List.filter_append [l] ls

/-- The characters of some lexemes. -/
def charsOf (ls : List Lexeme) : List Char := ls.flatMap (·.text)

theorem charsOf_cons (l : Lexeme) (ls : List Lexeme) : charsOf (l :: ls) = l.text ++ charsOf ls :=
  List.flatMap_cons

/-- The scanner cuts off the first lexeme, and then scans the characters of the others. -/
theorem scan_eq_cons {pos : Nat} {cs : List Char} {l : Lexeme} {ls : List Lexeme}
    (h : scan pos cs = l :: ls) :
    ∃ c ds, cs = c :: ds ∧ l = ⟨(cut c ds).token, pos, (cut c ds).text⟩ ∧
      (cut c ds).rest = charsOf ls ∧ scan (pos + utf8Length l.text) (charsOf ls) = ls := by
  cases cs with
  | nil => simp [scan] at h
  | cons c ds =>
    rw [scan_cons] at h
    obtain ⟨rfl, hls⟩ := List.cons.inj h
    have hrest : (cut c ds).rest = charsOf ls := by rw [← hls, charsOf, scan_text]
    exact ⟨c, ds, rfl, rfl, hrest, hrest ▸ hls⟩

/-- What the scanner finds behind some lexemes. -/
theorem scan_charsOf {pos : Nat} {cs : List Char} {ls ms : List Lexeme}
    (h : scan pos cs = ls ++ ms) : scan (pos + utf8Length (charsOf ls)) (charsOf ms) = ms := by
  induction ls generalizing pos cs with
  | nil =>
    obtain rfl : scan pos cs = ms := h
    rw [charsOf, charsOf, scan_text]
    rfl
  | cons l ls ih =>
    rw [List.cons_append] at h
    obtain ⟨c, ds, -, -, -, hscan⟩ := scan_eq_cons h
    rw [charsOf_cons, utf8Length_append, ← Nat.add_assoc]
    exact ih hscan

theorem charsOf_append (ls ms : List Lexeme) : charsOf (ls ++ ms) = charsOf ls ++ charsOf ms :=
  List.flatMap_append

theorem head?_charsOf_cons {l : Lexeme} (hl : l.text ≠ []) (ls : List Lexeme) (rest : List Char) :
    (charsOf (l :: ls) ++ rest).head? = l.text.head? := by
  obtain ⟨c, cs, hcs⟩ := List.exists_cons_of_ne_nil hl
  simp [charsOf_cons, hcs]

theorem text_ne_nil_of_scan {pos : Nat} {cs : List Char} {l : Lexeme} {ls : List Lexeme}
    (h : scan pos cs = l :: ls) : l.text ≠ [] := by
  obtain ⟨c, ds, -, rfl, -, -⟩ := scan_eq_cons h
  exact cut_text_ne_nil c ds

/-- What follows some lexemes can be exchanged for a text in which the last of them does not go
on. -/
theorem solid_scan_exchange {pos : Nat} {cs : List Char} {ls ms : List Lexeme}
    (h : scan pos cs = ls ++ ms) (hvalid : ∀ l ∈ ls, l.token ≠ .invalid) {rest : List Char}
    (hends : ∀ l ∈ ls.getLast?, l.EndsBefore rest) :
    solid (scan pos (charsOf ls ++ rest)) =
      solid ls ++ solid (scan (pos + utf8Length (charsOf ls)) rest) := by
  induction ls generalizing pos cs with
  | nil => rfl
  | cons l ls ih =>
    rw [List.cons_append] at h
    obtain ⟨c, ds, -, rfl, hrest, hscan⟩ := scan_eq_cons h
    obtain ⟨hlvalid, hlsvalid⟩ := List.forall_mem_cons.mp hvalid
    have htoken : (cut c ds).IsToken := isToken_cut hlvalid
    have hfirst : Lexeme.EndsBefore ⟨(cut c ds).token, pos, (cut c ds).text⟩
        (charsOf ls ++ rest) := by
      cases ls with
      | nil => exact hends _ rfl
      | cons next ls =>
        -- the next lexeme is still there, so that the first one ends as it did
        have hnext := text_ne_nil_of_scan hscan
        refine htoken.endsBefore_of_head?_eq pos ?_
        rw [hrest, charsOf_append, head?_charsOf_cons hnext, head?_charsOf_cons hnext]
    have hlast : ∀ l ∈ ls.getLast?, l.EndsBefore rest := fun l hl => by
      cases ls with
      | nil => cases hl
      | cons next ls => exact hends l (by rwa [List.getLast?_cons_cons])
    have hrest' := ih hscan hlsvalid hlast
    rw [charsOf_cons, List.append_assoc, htoken.solid_scan pos hfirst, utf8Length_append,
      ← Nat.add_assoc, solid_cons, hrest', solid_cons _ ls, List.append_assoc]

/-- A lexeme that is no invalid one is a token, and ends in front of the lexemes behind it. -/
theorem isToken_of_scan {pos : Nat} {cs : List Char} {before after : List Lexeme} {l : Lexeme}
    (h : scan pos cs = before ++ l :: after) (hl : l.token ≠ .invalid) :
    Cut.IsToken ⟨l.token, l.text, charsOf after⟩ := by
  obtain ⟨c, ds, -, rfl, hrest, -⟩ := scan_eq_cons (scan_charsOf h)
  rw [← hrest]
  exact isToken_cut hl

/-- The last of some lexemes ends in front of another text if atoms and comments do. -/
theorem endsBefore_of_mem_getLast? {pos : Nat} {cs : List Char} {ls ms : List Lexeme}
    (h : scan pos cs = ls ++ ms) (hvalid : ∀ l ∈ ls, l.token ≠ .invalid) {rest : List Char}
    (hatom : EndsAtom (charsOf ms) → EndsAtom rest)
    (hcomment : EndsLine (charsOf ms) → HidesNothing rest) :
    ∀ l ∈ ls.getLast?, l.EndsBefore rest := by
  intro l hl
  obtain ⟨before, rfl⟩ := List.getLast?_eq_some_iff.mp hl
  rw [List.append_assoc] at h
  have htoken := isToken_of_scan h (hvalid l (by simp))
  exact htoken.endsBefore l.start hatom hcomment

/-! ## Gaps -/

/-- Layout that may stand between lexemes: a run of layout characters, or a comment with the line
feed that ends it. -/
inductive IsGap : List Char → Prop
  | run {cs} (h : ∀ c ∈ cs, isLayout c = true) : IsGap cs
  | comment {body} (h : ∀ c ∈ body, c ≠ '\n') : IsGap (';' :: (body ++ ['\n']))

/-- A gap in front of a text only moves the offsets. -/
theorem solid_scan_gap {gap : List Char} (h : IsGap gap) (pos : Nat) (rest : List Char) :
    solid (scan pos (gap ++ rest)) = solid (scan (pos + utf8Length gap) rest) := by
  cases h with
  | run h => exact solid_scan_layout h pos rest
  | @comment body h =>
    have hends : EndsLine ('\n' :: rest) := by simp [EndsLine]
    rw [List.cons_append, List.append_assoc, List.singleton_append, solid_scan_comment _ h,
      hidesNothing_of_endsLine hends, solid_scan_cons_of_isLayout (by decide)]
    simp only [utf8Length_cons, utf8Length_append, utf8Length_nil, show ';'.utf8Size = 1 from rfl]
    congr 2
    omega

theorem hidesNothing_gap {gap : List Char} (h : IsGap gap) {rest : List Char}
    (hrest : EndsLine rest) : HidesNothing (gap ++ rest) := by
  cases h with
  | run h =>
    induction gap with
    | nil => exact hidesNothing_of_endsLine hrest
    | cons c cs ih =>
      obtain ⟨hc, hcs⟩ := List.forall_mem_cons.mp h
      by_cases hfeed : c = '\n'
      · exact hidesNothing_of_endsLine (by simp [EndsLine, hfeed])
      · intro pos
        have hbody : ∀ d ∈ [c], d ≠ '\n' := by simpa using hfeed
        have hcomment := solid_scan_comment pos hbody (cs ++ rest)
        rw [List.singleton_append] at hcomment
        rw [List.cons_append, hcomment, ih hcs, solid_scan_cons_of_isLayout hc]
        simp [Nat.add_right_comm]
  | comment h =>
    intro pos
    have hbody : ∀ d ∈ [';'], d ≠ '\n' := by simp
    exact solid_scan_comment pos hbody _

theorem endsAtom_gap {gap : List Char} (h : IsGap gap) {rest : List Char} (hrest : EndsAtom rest) :
    EndsAtom (gap ++ rest) := by
  cases h with
  | run h =>
    cases gap with
    | nil => exact hrest
    | cons c cs =>
      have hc := isWhite_of_isLayout (h c List.mem_cons_self)
      exact endsAtom_cons (by simp [isBareChar, hc]) _
  | comment h => exact endsAtom_cons (by decide) _

section InsideLayout

variable {before gap rest : List Char} (hgap : IsGap gap)

include hgap

theorem endsAtom_layout_gap (h : EndsAtom (before ++ rest)) :
    EndsAtom (before ++ (gap ++ rest)) := by
  cases before with
  | nil => exact endsAtom_gap hgap h
  | cons c cs => exact h

theorem hidesNothing_layout_gap (h : EndsLine (before ++ rest)) :
    HidesNothing (before ++ (gap ++ rest)) := by
  cases before with
  | nil => exact hidesNothing_gap hgap h
  | cons c cs => exact hidesNothing_of_endsLine h

/-- The tokens of a text are the same with a gap between any two lexemes, inside a run of layout
characters, or at either end. -/
theorem map_token_solid_scan_gap (hbefore : ∀ c ∈ before, isLayout c = true) {pos : Nat}
    {cs : List Char} {ls ms : List Lexeme} (h : scan pos cs = ls ++ ms)
    (hvalid : ∀ l ∈ ls, l.token ≠ .invalid) (hms : charsOf ms = before ++ rest) :
    (solid (scan pos (charsOf ls ++ (before ++ (gap ++ rest))))).map (·.token) =
      (solid (ls ++ ms)).map (·.token) := by
  have hends : ∀ l ∈ ls.getLast?, l.EndsBefore (before ++ (gap ++ rest)) := by
    apply endsBefore_of_mem_getLast? h hvalid
    · rw [hms]
      exact endsAtom_layout_gap hgap
    · rw [hms]
      exact hidesNothing_layout_gap hgap
  generalize hstart : pos + utf8Length (charsOf ls) = start
  have hsolid : solid ms = solid (scan (start + utf8Length before) rest) := by
    rw [← solid_scan_layout hbefore, ← hms, ← hstart, scan_charsOf h]
  have hmoved := map_token_scan (start + utf8Length before + utf8Length gap)
    (start + utf8Length before) rest
  rw [solid_scan_exchange h hvalid hends, hstart, solid_scan_layout hbefore, solid_scan_gap hgap,
    List.map_append, map_token_solid (scan _ _), hmoved, ← map_token_solid, ← hsolid,
    ← List.map_append]
  exact congrArg (List.map _) (List.filter_append ls ms).symm

end InsideLayout

/-- The text with a gap behind its first `n` lexemes, and behind the first `k` of the layout
characters that follow these, as far as there are that many. -/
def insertGap (text : String) (n k : Nat) (gap : List Char) : String :=
  let rest := charsOf ((lexemes text).drop n)
  let layout := (rest.takeWhile isLayout).take k
  String.ofList (charsOf ((lexemes text).take n) ++ (layout ++ (gap ++ rest.drop layout.length)))

theorem take_takeWhile_append (p : Char → Bool) (k : Nat) (cs : List Char) :
    (cs.takeWhile p).take k ++ cs.drop ((cs.takeWhile p).take k).length = cs := by
  have hprefix : (cs.takeWhile p).take k <+: cs :=
    (List.take_prefix k _).trans (List.takeWhile_prefix p)
  exact List.prefix_iff_eq_append.mp hprefix

theorem insertGap_nil (text : String) (n k : Nat) : insertGap text n k [] = text := by
  rw [insertGap, List.nil_append, take_takeWhile_append, ← charsOf_append, List.take_append_drop,
    charsOf, lexemes, scan_text, String.ofList_toList]

theorem ne_invalid_of_mem_lexemes {text : String} (h : .invalid ∉ tokens text) :
    ∀ l ∈ lexemes text, l.token ≠ .invalid := by
  intro l hl hinvalid
  exact h (List.mem_filter.mpr ⟨List.mem_map.mpr ⟨l, hl, hinvalid⟩, by simp⟩)

/-- A gap changes no tokens. -/
theorem tokens_insertGap {text : String} (hvalid : .invalid ∉ tokens text) (n k : Nat)
    {gap : List Char} (hgap : IsGap gap) : tokens (insertGap text n k gap) = tokens text := by
  have hvalid' : ∀ l ∈ (lexemes text).take n, l.token ≠ .invalid := fun l hl =>
    ne_invalid_of_mem_lexemes hvalid l (List.mem_of_mem_take hl)
  have hsplit : scan 0 text.toList = (lexemes text).take n ++ (lexemes text).drop n :=
    (List.take_append_drop n (lexemes text)).symm
  have hlayout : ∀ c ∈ ((charsOf ((lexemes text).drop n)).takeWhile isLayout).take k,
      isLayout c = true := fun c hc =>
    forall_mem_takeWhile isLayout _ c (List.mem_of_mem_take hc)
  have htokens := map_token_solid_scan_gap hgap hlayout hsplit hvalid'
    (take_takeWhile_append isLayout k _).symm
  rw [tokens_eq, tokens_eq, lexemes, insertGap, String.toList_ofList, htokens,
    List.take_append_drop]

/-! ## Texts behind line feeds -/

/-- No lexeme goes on behind a line feed. -/
theorem solid_lexemes_line {text : String} (hvalid : ∀ l ∈ lexemes text, l.token ≠ .invalid)
    (next : String) :
    solid (lexemes (text ++ "\n" ++ next)) =
      solid (lexemes text) ++ solid (scan (utf8Length text.toList + 1) next.toList) := by
  have hchars : charsOf (lexemes text) = text.toList := scan_text 0 _
  have hscan : scan 0 text.toList = lexemes text ++ [] := (List.append_nil _).symm
  have hends : ∀ l ∈ (lexemes text).getLast?, l.EndsBefore ('\n' :: next.toList) :=
    endsBefore_of_mem_getLast? hscan hvalid (fun _ => endsAtom_cons (by decide) _) fun _ =>
      hidesNothing_of_endsLine (by simp [EndsLine])
  have hlexemes := solid_scan_exchange hscan hvalid hends
  rw [hchars, solid_scan_cons_of_isLayout (by decide), Nat.zero_add] at hlexemes
  rw [lexemes, String.toList_append, String.toList_append, List.append_assoc]
  exact hlexemes

/-- What is read in a text that stands behind `n` further bytes. -/
theorem run_scan (n start : Nat) (text : String) :
    (Reader.run ⟨solid (scan n text.toList), start, false⟩).1.map (·.2) =
      mapItems (n + ·) (items text) := by
  have hfg : ∀ p q k, id p = n + q → id (p + k) = n + (q + k) := by
    intro p q k h
    simp only [id_eq] at h ⊢
    omega
  have hplaced : (solid (scan n text.toList)).map (Lexeme.placed id) =
      (solid (lexemes text)).map (Lexeme.placed (n + ·)) := by
    rw [map_placed_solid, map_placed_solid, lexemes,
      placed_scan hfg text.toList (Nat.add_zero n).symm]
  have hrun := run_of_placed_eq hfg hplaced start 0
  rwa [mapItems_id, ← solidReader, ← locatedItems_eq] at hrun

/-- The items of a text that stands behind a line feed and a text without errors. -/
theorem items_line {text : String} {xs : List Sexp} (h : items text = xs.map .ok)
    (next : String) :
    items (text ++ "\n" ++ next) =
      items text ++ mapItems (utf8Length text.toList + 1 + ·) (items next) := by
  have hdenotes := denotes_of_items h
  obtain ⟨placed, hplaced, rfl, -⟩ := locatedItems_of_denotes hdenotes
  have hvalid : ∀ l ∈ lexemes text, l.token ≠ .invalid := by
    intro l hl hinvalid
    exact hdenotes.valid l (List.mem_filter.mpr ⟨hl, by simp [hinvalid]⟩) hinvalid
  obtain ⟨start, hrun⟩ := Reader.run_append_of_derivesAt hplaced hdenotes.depthAll_le 0
    (solid (scan (utf8Length text.toList + 1) next.toList))
  rw [h, items, locatedItems_eq, solidReader, solid_lexemes_line hvalid, hrun, List.map_append,
    run_scan, List.map_map, List.map_map]
  rfl

end TermRules.Sexp

import TermRules.Proofs.Sexp.Tiling

/-!
# What the offset of an error points at

The error with which the reading of a text ends tells of one character of the text, and its offset
is that of the character (`exists_isCulprit`). What this character has to do with the error is said
for each kind of error by `IsCulprit`. Most kinds refer to what stands before the character, read
as a text of its own: it has items without an error, or it leaves lists open, as many as there may
be.

Two things are put together here. On the side of the reader, the lexemes before the one that fails
are a derivation of the items so far, followed by an unfinished item (`breaksOff_of_run`). On the
side of the scanner, the lexemes before a place are those of the text before it
(`solid_lexemes_charsOf`), because the last of them ends there.
-/

namespace TermRules.Sexp

open Text

/-! ## Lists left open -/

/-- The lexemes leave some lists open. These are opened by the lexemes `opened`, the innermost list
first. -/
inductive LeavesOpen : List Lexeme → List Lexeme → Prop
  | nil {ls xs} (h : Derives ls xs) : LeavesOpen ls []
  | push {ls opened l inner members} (h : LeavesOpen ls opened) (hl : l.token = .opening)
    (hinner : Derives inner members) : LeavesOpen (ls ++ l :: inner) (l :: opened)

/-- The lists that the reader keeps open are those that the lexemes leave open. -/
theorem Opens.exists_leavesOpen {stack : List OpenList} {read done : List Lexeme} {xs : List Sexp}
    (h : Opens stack read) (hdone : Derives done xs) :
    ∃ opened, LeavesOpen (done ++ read) opened ∧
      opened.map (·.start) = stack.map (·.start) := by
  induction h with
  | nil =>
    rw [List.append_nil]
    exact ⟨[], .nil hdone, rfl⟩
  | @push outer read opening inner members _ hopening hinner _ ih =>
    obtain ⟨opened, hopened, hstarts⟩ := ih
    rw [← List.append_assoc]
    exact ⟨opening :: opened, .push hopened hopening hinner, by simp [hstarts]⟩

/-- What holds of opening parentheses and of the lexemes of derivations. -/
theorem LeavesOpen.forall_mem {P : Lexeme → Prop} {ls opened : List Lexeme}
    (h : LeavesOpen ls opened) (hopening : ∀ l, l.token = .opening → P l)
    (hderives : ∀ ms xs, Derives ms xs → ∀ l ∈ ms, P l) : ∀ l ∈ ls, P l := by
  induction h with
  | nil hls => exact hderives _ _ hls
  | push _ hl hinner ih =>
    exact List.forall_mem_append.mpr ⟨ih, List.forall_mem_cons.mpr
      ⟨hopening _ hl, hderives _ _ hinner⟩⟩

theorem LeavesOpen.ne_invalid {ls opened : List Lexeme} (h : LeavesOpen ls opened) :
    ∀ l ∈ ls, l.token ≠ .invalid :=
  h.forall_mem (fun l hl => by simp [hl]) fun _ _ hderives => hderives.ne_invalid

theorem LeavesOpen.exists_unquote {ls opened : List Lexeme} (h : LeavesOpen ls opened) :
    ∀ l ∈ ls, ∀ text, l.token = .quoted text → ∃ content, unquote text = .ok content :=
  h.forall_mem (fun l hl => by simp [hl]) fun _ _ hderives => hderives.exists_unquote

/-! ## Where a reading breaks off -/

/-- The reading breaks off with the error in the lexemes that follow those of an unfinished item:
at a lexeme that fails, or at the end of all lexemes inside of a list. -/
inductive BreaksOff (read : List Lexeme) : List Lexeme → ReadError → Prop
  | lexeme {stack piece l after e} (h : Opens stack (read ++ piece))
    (hmove : move stack l = .fail e) : BreaksOff read (piece ++ l :: after) e
  | ending {innermost outer ls} (h : Opens (innermost :: outer) (read ++ ls)) :
    BreaksOff read ls (.unclosedOpen innermost.start)

theorem BreaksOff.cons {read ls : List Lexeme} {l : Lexeme} {e : ReadError}
    (h : BreaksOff (read ++ [l]) ls e) : BreaksOff read (l :: ls) e := by
  cases h with
  | @lexeme stack piece _ _ _ h hmove =>
    rw [List.append_assoc] at h
    rw [← List.cons_append]
    exact .lexeme h hmove
  | ending h =>
    rw [List.append_assoc] at h
    exact .ending h

/-- An item that ends with an error breaks off. -/
theorem breaksOff_of_readItem {ls : List Lexeme} (hls : ∀ l ∈ ls, l.token ≠ .blank) {start : Nat}
    {stack : List OpenList} {read : List Lexeme} (h : Opens stack read) {e : ReadError}
    (he : (readItem start stack ls).item = some (.error e)) : BreaksOff read ls e := by
  induction ls generalizing start stack read with
  | nil =>
    cases stack with
    | nil => simp [readItem] at he
    | cons innermost outer =>
      obtain rfl : .unclosedOpen innermost.start = e := by simpa [readItem] using he
      exact .ending (by rwa [List.append_nil])
  | cons l ls ih =>
    obtain ⟨hl, hls⟩ := List.forall_mem_cons.mp hls
    simp only [readItem] at he
    cases hmove : move stack l with
    | skip => exact absurd (blank_of_move_skip hmove) hl
    | enter opened =>
      simp only [hmove] at he
      exact (ih hls (h.enter hmove) he).cons
    | complete x outer =>
      obtain ⟨before, piece, hread, hbefore, hpiece, hdepth⟩ := h.complete hmove
      cases outer with
      | nil => simp [hmove] at he
      | cons innermost outer =>
        simp only [hmove] at he
        have hinside := hbefore.add hpiece hdepth
        rw [← hread] at hinside
        exact (ih hls hinside he).cons
    | fail e' =>
      obtain rfl : e' = e := by simpa [hmove] using he
      rw [← List.nil_append (l :: ls)]
      exact .lexeme (by rwa [List.append_nil]) hmove

/-- A reading with an error breaks off behind the items that it finds. -/
theorem breaksOff_of_run {ls : List Lexeme} (hls : ∀ l ∈ ls, l.token ≠ .blank) {start : Nat}
    {e : ReadError} (h : .error e ∈ (Reader.run ⟨ls, start, false⟩).1.map (·.2)) :
    ∃ done xs rest, ls = done ++ rest ∧ Derives done xs ∧ depthAll xs ≤ maxDepth ∧
      BreaksOff [] rest e := by
  generalize hrun : (Reader.run ⟨ls, start, false⟩).1 = items at h
  induction items generalizing ls start with
  | nil => cases h
  | cons entry items ih =>
    obtain ⟨pos, e' | x⟩ := entry
    · obtain ⟨hitem, rfl⟩ := Reader.item_of_run_eq_error rfl hrun
      obtain rfl : e = e' := by simpa using h
      exact ⟨[], [], ls, rfl, .nil, Nat.zero_le _, breaksOff_of_readItem hls .nil hitem⟩
    · obtain ⟨first, piece, rest, rfl, hderives, hdepth, -, hrest⟩ :=
        Reader.derives_of_run_eq_cons hls hrun
      rw [← List.cons_append] at hls
      have hlater : .error e ∈ items.map (·.2) := by simpa using h
      obtain ⟨done, xs, rest', rfl, hdone, hdones, hbreaks⟩ :=
        ih (fun l hl => hls l (List.mem_append_right _ hl)) hrest hlater
      refine ⟨first :: piece ++ done, x :: xs, rest', by simp, hderives.append hdone, ?_, hbreaks⟩
      exact Nat.max_le.mpr ⟨hdepth, hdones⟩

/-! ## Places of lexemes -/

section Places

variable {text : String} {before after : List Lexeme} {l : Lexeme}

theorem exists_split_of_solid {ls ms ns : List Lexeme} (h : solid ls = ms ++ l :: ns) :
    ∃ before after, ls = before ++ l :: after ∧ solid before = ms := by
  obtain ⟨front, back, rfl, rfl, hback⟩ := List.filter_eq_append_iff.mp h
  obtain ⟨blanks, after, rfl, hblanks, -, -⟩ := List.filter_eq_cons_iff.mp hback
  refine ⟨front ++ blanks, after, (List.append_assoc ..).symm, ?_⟩
  have hnone : solid blanks = [] := List.filter_eq_nil_iff.mpr hblanks
  rw [solid, List.filter_append, ← solid, ← solid, hnone, List.append_nil]

theorem toList_eq_of_lexemes (h : lexemes text = before ++ l :: after) :
    text.toList = charsOf before ++ (l.text ++ charsOf after) := by
  rw [← charsOf_cons, ← charsOf_append, ← h, lexemes, charsOf, scan_text]

theorem start_of_lexemes (h : lexemes text = before ++ l :: after) :
    l.start = utf8Length (charsOf before) := by
  rw [start_of_scan h, Nat.zero_add]

theorem mem_lexemes_of_split (h : lexemes text = before ++ l :: after) :
    ⟨l.token, utf8Length (charsOf before), l.text⟩ ∈ lexemes text := by
  rw [← start_of_lexemes h, h]
  simp

theorem ne_invalid_of_solid {ls : List Lexeme} (h : ∀ l ∈ solid ls, l.token ≠ .invalid) :
    ∀ l ∈ ls, l.token ≠ .invalid := by
  intro l hl hinvalid
  exact h l (List.mem_filter.mpr ⟨hl, by simp [hinvalid]⟩) hinvalid

/-- The text before a place has the lexemes before that place. -/
theorem solid_lexemes_charsOf (h : lexemes text = before ++ after)
    (hvalid : ∀ m ∈ solid before, m.token ≠ .invalid) :
    solid (lexemes (String.ofList (charsOf before))) = solid before := by
  have hvalid' := ne_invalid_of_solid hvalid
  have hends : ∀ m ∈ before.getLast?, m.EndsBefore [] :=
    endsBefore_of_mem_getLast? h hvalid' (fun _ => endsAtom_nil) fun _ =>
      hidesNothing_of_endsLine (by simp [EndsLine])
  have hexchange := solid_scan_exchange h hvalid' hends
  rw [List.append_nil] at hexchange
  rw [lexemes, String.toList_ofList, hexchange]
  simp [scan, solid]

theorem items_charsOf (h : lexemes text = before ++ after) {xs : List Sexp}
    (hderives : Derives (solid before) xs) (hdepth : depthAll xs ≤ maxDepth) :
    items (String.ofList (charsOf before)) = xs.map .ok := by
  rw [← solid_lexemes_charsOf h hderives.ne_invalid] at hderives
  exact items_of_denotes (.of_derives hderives hdepth)

end Places

/-! ## Culprits -/

/-- A text within quotes does not end with a backslash that starts no escape. -/
theorem append_backslash_notMem_bodies {plain content : List Char} (h : Spells plain content) :
    plain ++ ['\\'] ∉ bodies := by
  induction h with
  | nil =>
    intro hmem
    obtain ⟨c, ds, hcs, -⟩ := exists_of_backslash_cons_mem_bodies hmem
    cases hcs
  | plain hc _ ih => exact fun hmem => ih (mem_bodies_of_cons hc hmem)
  | escape _ _ ih =>
    intro hmem
    obtain ⟨c, ds, hcs, hds⟩ := exists_of_backslash_cons_mem_bodies hmem
    cases hcs
    exact ih hds

/-- The error tells of a character of the text that stands behind `before`, in front of `after`. -/
inductive IsCulprit (text : String) (before : List Char) : Char → List Char → ReadError → Prop
  /-- A parenthesis that closes no list, since what stands before it are S-expressions. -/
  | unexpectedClose {after} {xs : List Sexp}
    (hmem : ⟨.closing, utf8Length before, [')']⟩ ∈ lexemes text)
    (hitems : items (String.ofList before) = xs.map .ok) :
    IsCulprit text before ')' after (.unexpectedClose (utf8Length before))
  /-- The parenthesis that opens the innermost of the lists that the text leaves open. -/
  | unclosedOpen {after opening opened}
    (hopen : LeavesOpen (solid (lexemes text)) (opening :: opened))
    (hstart : opening.start = utf8Length before) :
    IsCulprit text before '(' after (.unclosedOpen (utf8Length before))
  /-- A parenthesis that opens a list where as many lists are open as there may be. -/
  | tooDeep {after opened} (hmem : ⟨.opening, utf8Length before, ['(']⟩ ∈ lexemes text)
    (hopen : LeavesOpen (solid (lexemes (String.ofList before))) opened)
    (hlength : opened.length = maxDepth) :
    IsCulprit text before '(' after (.tooDeep (utf8Length before))
  /-- The first backslash that starts no escape, in the first text in quotes that has one. -/
  | invalidEscape {ls l ms plain content letter rest} (hlexemes : lexemes text = ls ++ l :: ms)
    (hescapes : ∀ m ∈ ls, m.WellEscaped)
    (hquoted : l.token = .quoted (inQuotes (plain ++ '\\' :: letter :: rest)))
    (hplain : Spells plain content) (hletter : ∀ c, (letter, c) ∉ escapes)
    (hbefore : before = charsOf ls ++ '"' :: plain) :
    IsCulprit text before '\\' (letter :: (rest ++ '"' :: charsOf ms))
      (.invalidEscape (utf8Length before))
  /-- A quote at which no text in quotes stands. -/
  | quote {after cs} (hmem : ⟨.invalid, utf8Length before, cs⟩ ∈ lexemes text)
    (hnone : ∀ w ∈ quotations, ¬w <+: '"' :: after) :
    IsCulprit text before '"' after (.invalidToken (utf8Length before))
  /-- White space that is no layout. -/
  | white {after c} (hmem : ⟨.invalid, utf8Length before, [c]⟩ ∈ lexemes text)
    (hwhite : isWhite c = true) (hlayout : isLayout c = false) :
    IsCulprit text before c after (.invalidToken (utf8Length before))
  /-- The first character of the second S-expression, if the first is all that stands before. -/
  | trailing {after c ls first piece rest x y}
    (hlexemes : solid (lexemes text) = ls ++ first :: (piece ++ rest)) (hx : Derives ls [x])
    (hy : Derives (first :: piece) [y]) (hstart : first.start = utf8Length before)
    (htext : first.text.head? = some c) (hparse : parse (String.ofList before) = .ok x) :
    IsCulprit text before c after (.trailing (utf8Length before))

theorem IsCulprit.offset?_eq {text : String} {before after : List Char} {c : Char} {e : ReadError}
    (h : IsCulprit text before c after e) : e.offset? = some (utf8Length before) := by
  cases h <;> rfl

/-- The error tells of some character of the text. -/
def HasCulprit (text : String) (e : ReadError) : Prop :=
  ∃ before c after, text.toList = before ++ c :: after ∧ IsCulprit text before c after e

section Lexemes

variable {text : String} {ls ms done read : List Lexeme} {l : Lexeme} {xs : List Sexp}

theorem HasCulprit.of_lexeme (hsplit : lexemes text = ls ++ l :: ms) {c : Char} {cs : List Char}
    (htext : l.text = c :: cs) {e : ReadError}
    (h : IsCulprit text (charsOf ls) c (cs ++ charsOf ms) e) : HasCulprit text e := by
  refine ⟨charsOf ls, c, cs ++ charsOf ms, ?_, h⟩
  rw [toList_eq_of_lexemes hsplit, htext, List.cons_append]

theorem hasCulprit_invalidToken (hsplit : lexemes text = ls ++ l :: ms) (hl : l.token = .invalid) :
    HasCulprit text (.invalidToken l.start) := by
  have hmem := mem_lexemes_of_split hsplit
  have hlongest := isLongest_of_scan hsplit
  rw [start_of_lexemes hsplit]
  rw [hl] at hmem
  cases hlongest with
  | token h =>
    cases hl
    exact absurd h.mem (Language.notMem_zero _)
  | quote _ hnone => exact .of_lexeme hsplit rfl (.quote hmem (hnone (.quoted [])))
  | white hwhite hlayout => exact .of_lexeme hsplit rfl (.white hmem hwhite hlayout)

theorem hasCulprit_invalidEscape (hsplit : lexemes text = ls ++ l :: ms)
    (hescapes : ∀ m ∈ ls, m.WellEscaped) {quoted : List Char} {offset : Nat}
    (hl : l.token = .quoted quoted) (hoffset : unquote quoted = .error offset) :
    HasCulprit text (.invalidEscape (l.start + offset)) := by
  obtain ⟨htext, body, hbody, rfl⟩ := (isLongest_of_scan hsplit).of_quoted hl
  obtain ⟨plain, content, rest, rfl, hplain, hrest, rfl⟩ :=
    decode_eq_error_iff.mp (unquote_eq_error_iff.mp hoffset)
  cases rest with
  | nil => exact absurd hbody (append_backslash_notMem_bodies hplain)
  | cons letter rest =>
    have hstart : l.start + (1 + utf8Length plain) = utf8Length (charsOf ls ++ '"' :: plain) := by
      rw [start_of_lexemes hsplit, utf8Length_append, utf8Length_cons]
      rfl
    rw [hstart]
    refine ⟨_, _, _, ?_, .invalidEscape hsplit hescapes hl hplain (hrest letter rfl) rfl⟩
    rw [toList_eq_of_lexemes hsplit, htext]
    simp [inQuotes]

/-- A lexeme at which the reading fails, behind some items and an unfinished one. -/
theorem hasCulprit_of_fail (hsplit : lexemes text = ls ++ l :: ms) (hread : solid ls = done ++ read)
    (hdone : Derives done xs) (hdepth : depthAll xs ≤ maxDepth) {stack : List OpenList}
    (hopens : Opens stack read) {e : ReadError} (hmove : move stack l = .fail e) :
    HasCulprit text e := by
  obtain ⟨opened, hopened, hstarts⟩ := hopens.exists_leavesOpen hdone
  rw [← hread] at hopened
  have hmem := mem_lexemes_of_split hsplit
  have hlongest := isLongest_of_scan hsplit
  rcases of_move_fail hmove with ⟨hl, hroom, rfl⟩ | ⟨hl, rfl, rfl⟩ |
    ⟨quoted, offset, hl, hoffset, rfl⟩ | ⟨hl, rfl⟩
  · have htext := hlongest.text_of_oneOf hl (by simp) rfl
    have hlength : opened.length = maxDepth := by
      have hstack : opened.length = stack.length := by simpa using congrArg List.length hstarts
      have := hopens.length_le
      omega
    rw [← solid_lexemes_charsOf hsplit hopened.ne_invalid] at hopened
    rw [hl, htext] at hmem
    rw [start_of_lexemes hsplit]
    exact .of_lexeme hsplit htext (.tooDeep hmem hopened hlength)
  · have htext := hlongest.text_of_oneOf hl (by simp) rfl
    cases hopens
    rw [← List.append_nil done, ← hread] at hdone
    rw [hl, htext] at hmem
    rw [start_of_lexemes hsplit]
    exact .of_lexeme hsplit htext (.unexpectedClose hmem (items_charsOf hsplit hdone hdepth))
  · refine hasCulprit_invalidEscape hsplit (fun m hm => ?_) hl hoffset
    refine wellEscaped_of_mem_lexemes (hsplit ▸ List.mem_append_left _ hm) fun text htext => ?_
    exact hopened.exists_unquote m (List.mem_filter.mpr ⟨hm, by simp [htext]⟩) text htext
  · exact hasCulprit_invalidToken hsplit hl

/-- The end of the text inside of a list, behind some items. -/
theorem hasCulprit_unclosedOpen {innermost : OpenList} {outer : List OpenList}
    (hread : solid (lexemes text) = done ++ read) (hdone : Derives done xs)
    (hopens : Opens (innermost :: outer) read) :
    HasCulprit text (.unclosedOpen innermost.start) := by
  obtain ⟨opened, hopened, hstarts⟩ := hopens.exists_leavesOpen hdone
  rw [← hread] at hopened
  obtain ⟨opening, opened, rfl, hhead, -⟩ := List.map_eq_cons_iff.mp hstarts
  have hstart : opening.start = innermost.start := hhead
  generalize hsolid : solid (lexemes text) = solids at hopened
  have hopen := hopened
  cases hopened with
  | push _ hl _ =>
    obtain ⟨before, after, hsplit, -⟩ := exists_split_of_solid hsolid
    have htext := (isLongest_of_scan hsplit).text_of_oneOf hl (by simp) rfl
    rw [← hsolid] at hopen
    rw [← hstart, start_of_lexemes hsplit]
    exact .of_lexeme hsplit htext (.unclosedOpen hopen (start_of_lexemes hsplit))

end Lexemes

theorem hasCulprit_of_mem_items {text : String} {e : ReadError} (h : .error e ∈ items text) :
    HasCulprit text e := by
  rw [items, locatedItems_eq] at h
  obtain ⟨done, xs, rest, hsolid, hdone, hdepth, hbreaks⟩ :=
    breaksOff_of_run (ne_blank_of_mem_solid _) h
  cases hbreaks with
  | lexeme hopens hmove =>
    rw [← List.append_assoc] at hsolid
    obtain ⟨before, after, hsplit, hread⟩ := exists_split_of_solid hsolid
    exact hasCulprit_of_fail hsplit hread hdone hdepth hopens hmove
  | ending hopens => exact hasCulprit_unclosedOpen hsolid hdone hopens

theorem hasCulprit_trailing {text : String} {pos start : Nat} {x y : Sexp}
    {items : List (Nat × Except ReadError Sexp)}
    (h : locatedItems text = (pos, .ok x) :: (start, .ok y) :: items) :
    HasCulprit text (.trailing start) := by
  rw [locatedItems_eq] at h
  have hsolid := ne_blank_of_mem_solid (lexemes text)
  obtain ⟨first, piece, rest, hread, hx, hdepth, -, hrest⟩ :=
    Reader.derives_of_run_eq_cons hsolid h
  rw [hread, ← List.cons_append] at hsolid
  obtain ⟨second, piece', rest', rfl, hy, -, rfl, -⟩ :=
    Reader.derives_of_run_eq_cons (fun l hl => hsolid l (List.mem_append_right _ hl)) hrest
  rw [← List.cons_append] at hread
  obtain ⟨before, after, hsplit, hbefore⟩ := exists_split_of_solid hread
  obtain ⟨c, cs, htext⟩ :=
    List.exists_cons_of_ne_nil (text_ne_nil_of_scan (scan_charsOf hsplit))
  have hstart := start_of_lexemes hsplit
  have hparse : parse (String.ofList (charsOf before)) = .ok x := by
    rw [← hbefore] at hx
    exact parse_eq_ok_iff.mpr (items_charsOf hsplit hx (by simpa [depthAll] using hdepth))
  rw [hstart]
  exact .of_lexeme hsplit htext (.trailing hread hx hy hstart (by simp [htext]) hparse)

/-- A text is no S-expression if it is empty, has an error, or has two of them. -/
theorem of_parse_eq_error {text : String} {e : ReadError} (h : parse text = .error e) :
    e = .noItem ∨ .error e ∈ items text ∨ ∃ pos x start y items,
      locatedItems text = (pos, .ok x) :: (start, .ok y) :: items ∧ e = .trailing start := by
  unfold parse at h
  split at h
  next =>
    cases h
    exact .inl rfl
  next hitems =>
    cases h
    exact .inr (.inl (by simp [items, hitems]))
  next => cases h
  next hitems =>
    cases h
    exact .inr (.inl (by simp [items, hitems]))
  next hitems =>
    cases h
    exact .inr (.inr ⟨_, _, _, _, _, hitems, rfl⟩)

/-- **Errors point at their culprits.** An error in the items of a text, or an error for which the
text is no S-expression, has the offset of the character that it tells of. -/
theorem exists_isCulprit {text : String} {e : ReadError}
    (h : .error e ∈ items text ∨ parse text = .error e) {pos : Nat} (hpos : e.offset? = some pos) :
    ∃ before c after, text.toList = before ++ c :: after ∧ utf8Length before = pos ∧
      String.Pos.Raw.IsValid text ⟨pos⟩ ∧ IsCulprit text before c after e := by
  have hculprit : HasCulprit text e := by
    rcases h with h | h
    · exact hasCulprit_of_mem_items h
    · rcases of_parse_eq_error h with rfl | hitems | ⟨_, _, _, _, _, hitems, rfl⟩
      · cases hpos
      · exact hasCulprit_of_mem_items hitems
      · exact hasCulprit_trailing hitems
  obtain ⟨before, c, after, htext, hculprit⟩ := hculprit
  obtain rfl : utf8Length before = pos := Option.some.inj (hculprit.offset?_eq.symm.trans hpos)
  exact ⟨before, c, after, htext, rfl, isValid_utf8Length htext, hculprit⟩

/-- A text with an unknown escape behind a character of two bytes. -/
def misescaped : String := "é \"a\\q\""

theorem exists_isCulprit_misescaped :
    .error (.invalidEscape 5) ∈ items misescaped ∧
      ∃ before c after, misescaped.toList = before ++ c :: after ∧ utf8Length before = 5 ∧
        String.Pos.Raw.IsValid misescaped ⟨5⟩ ∧
        IsCulprit misescaped before c after (.invalidEscape 5) := by
  have hitems : items misescaped = [.ok (.atom "é"), .error (.invalidEscape 5)] := by cbv
  have hmem : .error (.invalidEscape 5) ∈ items misescaped := by simp [hitems]
  exact ⟨hmem, exists_isCulprit (.inl hmem) rfl⟩

end TermRules.Sexp

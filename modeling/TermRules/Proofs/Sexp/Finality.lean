import TermRules.Proofs.Sexp.Culprits

/-!
# Errors are final

An error with which the reading of a text ends stays what it is if the text goes on, unless it is
due to the end of the text (`ReadError.IsOpenEnded`): a list or a quote that is still open may be
closed by what follows.

The reader does not look ahead: it stops at a lexeme, and what stands behind that lexeme does not
matter (`exists_stop_of_readItem`, `exists_fail_of_run`). The scanner does look ahead, since it
takes the longest lexeme there is. But a lexeme at which the reader fails is settled, which means
that it is cut off in front of any text (`isSettled_of_fail`), and as it stays where it is, so do
the lexemes before it (`exists_solid_lexemes_append`). Put together, the items of a text that ends
with such an error are those of any text that starts with it, and beyond the items every call gives
nothing: `items_final`.
-/

namespace TermRules.Sexp

open Text

/-! ## The reader stops at a lexeme -/

/-- The item that ends with a move. -/
def Move.item? : Move → Option (Except ReadError Sexp)
  | complete x [] => some (.ok x)
  | fail e => some (.error e)
  | _ => none

section Reading

variable {start : Nat} {stack : List OpenList} {l : Lexeme} {ls : List Lexeme}
variable {item : Except ReadError Sexp}

theorem Move.eq_fail_of_item? {m : Move} {e : ReadError} (h : m.item? = some (.error e)) :
    m = .fail e := by
  cases m with
  | skip => cases h
  | enter => cases h
  | complete x outer => cases outer <;> cases h
  | fail e' =>
    cases h
    rfl

theorem ne_invalid_of_item? (h : ∀ e, (move stack l).item? ≠ some (.error e)) :
    l.token ≠ .invalid := by
  intro hl
  refine h (.invalidToken l.start) ?_
  simp only [move, hl, Move.item?]

theorem ne_blank_of_move_fail {e : ReadError} (h : move stack l = .fail e) : l.token ≠ .blank := by
  intro hl
  simp only [move, hl] at h
  cases h

theorem ne_atom_of_move_fail {e : ReadError} (h : move stack l = .fail e) (text : List Char) :
    l.token ≠ .atom text := by
  intro hl
  simp only [move, hl] at h
  cases h

/-- With a lexeme that ends an item the reader is done, whatever follows. -/
theorem readItem_cons_of_item?_eq_some (h : (move stack l).item? = some item) (start : Nat) :
    ∃ start', ∀ ls, readItem start stack (l :: ls) = ⟨some item, start', ls⟩ := by
  refine ⟨if stack.isEmpty && l.token ≠ .blank then l.start else start, fun ls => ?_⟩
  rw [readItem]
  cases hmove : move stack l with
  | skip => simp [hmove, Move.item?] at h
  | enter opened => simp [hmove, Move.item?] at h
  | complete x outer =>
    cases outer with
    | nil =>
      obtain rfl : .ok x = item := by simpa [hmove, Move.item?] using h
      rfl
    | cons innermost outer => simp [hmove, Move.item?] at h
  | fail e =>
    obtain rfl : .error e = item := by simpa [hmove, Move.item?] using h
    rfl

/-- Behind a lexeme that ends no item the reader goes on. -/
theorem readItem_cons_of_item?_eq_none (h : (move stack l).item? = none) (start : Nat) :
    ∃ start' stack', ∀ ls, readItem start stack (l :: ls) = readItem start' stack' ls := by
  refine ⟨if stack.isEmpty && l.token ≠ .blank then l.start else start, ?_⟩
  simp only [readItem]
  cases hmove : move stack l with
  | skip => exact ⟨stack, fun ls => rfl⟩
  | enter opened => exact ⟨opened :: stack, fun ls => rfl⟩
  | complete x outer =>
    cases outer with
    | nil => simp [hmove, Move.item?] at h
    | cons innermost outer => exact ⟨innermost.add x :: outer, fun ls => rfl⟩
  | fail e => simp [hmove, Move.item?] at h

/-- An item ends at a lexeme, and is the same whatever follows that lexeme. -/
theorem exists_stop_of_readItem (hitem : (readItem start stack ls).item = some item)
    (hclosed : ∀ pos, item ≠ .error (.unclosedOpen pos)) :
    ∃ before l stack', ls = before ++ l :: (readItem start stack ls).rest ∧
      (∀ m ∈ before, m.token ≠ .invalid) ∧ (move stack' l).item? = some item ∧
      ∀ rest, readItem start stack (before ++ l :: rest) =
        ⟨some item, (readItem start stack ls).start, rest⟩ := by
  induction ls generalizing start stack with
  | nil =>
    cases stack with
    | nil => simp [readItem] at hitem
    | cons innermost outer =>
      obtain rfl : .error (.unclosedOpen innermost.start) = item := by simpa [readItem] using hitem
      exact absurd rfl (hclosed innermost.start)
  | cons l ls ih =>
    cases hl : (move stack l).item? with
    | some found =>
      obtain ⟨start', hstop⟩ := readItem_cons_of_item?_eq_some hl start
      rw [hstop] at hitem ⊢
      obtain rfl := Option.some.inj hitem
      exact ⟨[], l, stack, rfl, by simp, hl, hstop⟩
    | none =>
      obtain ⟨start', stack', hpass⟩ := readItem_cons_of_item?_eq_none hl start
      have hvalid : l.token ≠ .invalid := ne_invalid_of_item? fun e he => by
        cases hl.symm.trans he
      rw [hpass] at hitem ⊢
      obtain ⟨before, m, stack'', hls, hbefore, hm, hread⟩ := ih hitem
      refine ⟨l :: before, m, stack'', congrArg (l :: ·) hls, ?_, hm, fun rest => ?_⟩
      · exact List.forall_mem_cons.mpr ⟨hvalid, hbefore⟩
      · rw [List.cons_append, hpass, hread]

/-- A reading with an error that is not about an open list fails at a lexeme, and its items are the
same whatever follows that lexeme. -/
theorem exists_fail_of_run {e : ReadError}
    (h : .error e ∈ (Reader.run ⟨ls, start, false⟩).1.map (·.2))
    (hclosed : ∀ pos, e ≠ .unclosedOpen pos) :
    ∃ before l after stack, ls = before ++ l :: after ∧ (∀ m ∈ before, m.token ≠ .invalid) ∧
      move stack l = .fail e ∧ ∀ rest, (Reader.run ⟨before ++ l :: rest, start, false⟩).1 =
        (Reader.run ⟨ls, start, false⟩).1 := by
  generalize hrun : (Reader.run ⟨ls, start, false⟩).1 = items at h
  induction items generalizing ls start with
  | nil => cases h
  | cons entry items ih =>
    obtain ⟨pos, e' | x⟩ := entry
    · obtain ⟨hitem, rfl⟩ := Reader.item_of_run_eq_error rfl hrun
      obtain rfl : e = e' := by simpa using h
      obtain ⟨before, l, stack, hls, hvalid, hl, hread⟩ :=
        exists_stop_of_readItem hitem fun pos hpos => hclosed pos (Except.error.inj hpos)
      refine ⟨before, l, _, stack, hls, hvalid, Move.eq_fail_of_item? hl, fun rest => ?_⟩
      have hfailed := Reader.run_of_item_error (r := ⟨before ++ l :: rest, start, false⟩) rfl
        (e := e) (by rw [hread])
      rw [hfailed, hread, ← hrun, Reader.run_of_item_error rfl hitem]
    · obtain ⟨hitem, hpos, hrest⟩ := Reader.item_of_run_eq_cons rfl hrun
      simp only at hitem hpos hrest
      obtain ⟨first, m, stack, hls, hfirst, hm, hread⟩ :=
        exists_stop_of_readItem hitem fun _ hpos => by cases hpos
      have hm' : m.token ≠ .invalid := ne_invalid_of_item? fun e he => by
        cases hm.symm.trans he
      have hlater : .error e ∈ items.map (·.2) := by simpa using h
      obtain ⟨before, l, after, stack', hls', hvalid, hfail, hrun'⟩ := ih hrest hlater
      refine ⟨first ++ m :: before, l, after, stack', ?_, ?_, hfail, fun rest => ?_⟩
      · rw [hls, hls', List.append_assoc, List.cons_append]
      · exact List.forall_mem_append.mpr ⟨hfirst, List.forall_mem_cons.mpr ⟨hm', hvalid⟩⟩
      · rw [List.append_assoc, List.cons_append,
          Reader.run_of_item_ok (r := ⟨first ++ m :: (before ++ l :: rest), start, false⟩) rfl
            (x := x) (by rw [hread]), hread, hpos, hrun']

end Reading

/-! ## Settled lexemes -/

/-- The lexeme is cut off from any text that starts with its characters. -/
def Lexeme.IsSettled (l : Lexeme) : Prop :=
  ∀ rest, solid (scan l.start (l.text ++ rest)) =
    solid (l :: scan (l.start + utf8Length l.text) rest)

/-- Parentheses and atoms in quotes are settled. -/
theorem Cut.IsToken.isSettled {k : Cut} (h : k.IsToken) (hatom : ∀ text, k.token ≠ .atom text)
    (hblank : k.token ≠ .blank) (pos : Nat) : Lexeme.IsSettled ⟨k.token, pos, k.text⟩ := by
  intro rest
  refine h.solid_scan pos ⟨fun text htext => absurd htext (hatom text), fun htext => ?_⟩
  cases h with
  | atom => exact absurd rfl (hatom _)
  | layout => exact absurd rfl hblank
  | comment => exact absurd rfl hblank
  | _ => simp [inQuotes] at htext

/-- White space that is no layout is settled. -/
theorem isSettled_white {c : Char} (hwhite : isWhite c = true) (hlayout : isLayout c = false)
    (pos : Nat) : Lexeme.IsSettled ⟨.invalid, pos, [c]⟩ := by
  intro rest
  have hne : ∀ d, isWhite d = false → c ≠ d := by
    rintro d hd rfl
    cases hwhite.symm.trans hd
  have hcut : cut c rest = ⟨.invalid, [c], rest⟩ := by
    rw [cut, if_neg (hne '(' (by decide)), if_neg (hne ')' (by decide)),
      if_neg (hne '"' (by decide)), if_neg (hne ';' (by decide)), if_neg (by simp [hlayout]),
      if_pos hwhite]
  rw [List.singleton_append, scan_cons, hcut]

section Lexemes

variable {text : String} {before after : List Lexeme} {l : Lexeme}

/-- A lexeme at which the reader fails is settled, unless it is a quote. -/
theorem isSettled_of_fail (h : lexemes text = before ++ l :: after) {stack : List OpenList}
    {e : ReadError} (hfail : move stack l = .fail e)
    (hquote : l.token = .invalid → l.text.head? ≠ some '"') : l.IsSettled := by
  by_cases hl : l.token = .invalid
  · have hhead := hquote hl
    cases isLongest_of_scan h with
    | token hlongest =>
      cases hl
      exact absurd hlongest.mem (Language.notMem_zero _)
    | quote => exact absurd rfl hhead
    | white hwhite hlayout => exact isSettled_white hwhite hlayout _
  · exact (isToken_of_scan h hl).isSettled (ne_atom_of_move_fail hfail)
      (ne_blank_of_move_fail hfail) l.start

/-- A settled lexeme and those before it stay if the text goes on. -/
theorem solid_lexemes_append (h : lexemes text = before ++ l :: after)
    (hvalid : ∀ m ∈ before, m.token ≠ .invalid) (hsettled : l.IsSettled) (more : String) :
    solid (lexemes (text ++ more)) = solid before ++
      solid (l :: scan (l.start + utf8Length l.text) (charsOf after ++ more.toList)) := by
  -- what follows the lexemes before `l` starts as it did, namely with `l`
  have hhead : (l.text ++ (charsOf after ++ more.toList)).head? = (charsOf (l :: after)).head? := by
    obtain ⟨c, cs, hl⟩ := List.exists_cons_of_ne_nil (text_ne_nil_of_scan (scan_charsOf h))
    simp [charsOf_cons, hl]
  have hends := endsBefore_of_mem_getLast? h hvalid
    (fun hatom c hc => hatom c (hhead ▸ hc))
    fun hline => hidesNothing_of_endsLine fun c hc => hline c (hhead ▸ hc)
  rw [lexemes, String.toList_append, toList_eq_of_lexemes h, List.append_assoc, List.append_assoc,
    solid_scan_exchange h hvalid hends, ← start_of_scan h, hsettled]

end Lexemes

/-! ## Errors of texts that go on -/

/-- The error may be due to the end of the text: a list is still open, or a quote is. -/
inductive ReadError.IsOpenEnded (text : String) : ReadError → Prop
  | list (pos : Nat) : IsOpenEnded text (.unclosedOpen pos)
  | quote {before after : List Char} (h : text.toList = before ++ '"' :: after) :
    IsOpenEnded text (.invalidToken (utf8Length before))

/-- The items of a text with an error are those of every text that starts with it, unless the error
may be due to the end of the text. -/
theorem locatedItems_append {text : String} {e : ReadError} (h : .error e ∈ items text)
    (hfinal : ¬e.IsOpenEnded text) (more : String) :
    locatedItems (text ++ more) = locatedItems text := by
  have hclosed : ∀ pos, e ≠ .unclosedOpen pos := by
    rintro pos rfl
    exact hfinal (.list pos)
  rw [items, locatedItems_eq] at h
  obtain ⟨done, l, rest, stack, hsolid, hvalid, hfail, hrun⟩ := exists_fail_of_run h hclosed
  obtain ⟨before, after, hsplit, rfl⟩ := exists_split_of_solid hsolid
  have hquote : l.token = .invalid → l.text.head? ≠ some '"' := by
    intro hl hhead
    obtain ⟨cs, htext⟩ := List.head?_eq_some_iff.mp hhead
    have he : e = .invalidToken (utf8Length (charsOf before)) := by
      rw [← start_of_lexemes hsplit]
      simp only [move, hl] at hfail
      exact (Move.fail.inj hfail).symm
    subst he
    have hchars : text.toList = charsOf before ++ '"' :: (cs ++ charsOf after) := by
      rw [toList_eq_of_lexemes hsplit, htext, List.cons_append]
    exact hfinal (.quote hchars)
  rw [locatedItems_eq, locatedItems_eq, solidReader,
    solid_lexemes_append hsplit (ne_invalid_of_solid hvalid)
      (isSettled_of_fail hsplit hfail hquote), solid_cons_of_ne (ne_blank_of_move_fail hfail), hrun]
  rfl

/-! ## Calls -/

namespace Reader

/-- What the call with the number `k` gives. -/
def call (r : Reader) : Nat → Option (Except ReadError Sexp)
  | 0 => r.next.1
  | k + 1 => r.next.2.call k

/-- There was an error, or no lexeme is ahead. -/
def IsSpent (r : Reader) : Prop := r.failed = true ∨ r.rest = []

theorem readItem_rest_of_item_eq_none {start : Nat} {stack : List OpenList} {ls : List Lexeme}
    (h : (readItem start stack ls).item = none) : (readItem start stack ls).rest = [] := by
  induction ls generalizing start stack with
  | nil => cases stack <;> rfl
  | cons l ls ih =>
    cases hl : (move stack l).item? with
    | some found =>
      obtain ⟨start', hstop⟩ := readItem_cons_of_item?_eq_some hl start
      rw [hstop] at h
      cases h
    | none =>
      obtain ⟨start', stack', hpass⟩ := readItem_cons_of_item?_eq_none hl start
      rw [hpass] at h ⊢
      exact ih h

theorem isSpent_next {r : Reader} (h : ∀ x, r.next.1 ≠ some (.ok x)) : r.next.2.IsSpent := by
  cases hfailed : r.failed with
  | true =>
    rw [next, if_pos hfailed]
    exact .inl hfailed
  | false =>
    rw [next, if_neg (by simp [hfailed])] at h ⊢
    cases hitem : (readItem r.start [] r.rest).item with
    | none => exact .inr (readItem_rest_of_item_eq_none hitem)
    | some item =>
      cases item with
      | error e => exact .inl (by simp [after, hitem])
      | ok x => exact absurd hitem (h x)

theorem next_of_isSpent {r : Reader} (h : r.IsSpent) : r.next.1 = none ∧ r.next.2.IsSpent := by
  obtain ⟨rest, start, failed⟩ := r
  cases failed with
  | true => exact ⟨rfl, .inl rfl⟩
  | false =>
    obtain rfl : rest = [] := by simpa [IsSpent] using h
    exact ⟨rfl, .inr rfl⟩

theorem call_of_isSpent {r : Reader} (h : r.IsSpent) (k : Nat) : r.call k = none := by
  induction k generalizing r with
  | zero => exact (next_of_isSpent h).1
  | succ k ih => exact ih (next_of_isSpent h).2

/-- Once a call has given something else than an S-expression, all others give nothing. -/
theorem call_eq_none_of_lt {r : Reader} {j k : Nat} (hjk : j < k)
    (h : ∀ x, r.call j ≠ some (.ok x)) : r.call k = none := by
  induction j generalizing r k with
  | zero =>
    cases k with
    | zero => cases hjk
    | succ k => exact call_of_isSpent (isSpent_next h) k
  | succ j ih =>
    cases k with
    | zero => cases hjk
    | succ k =>
      have hnext := ih (Nat.lt_of_succ_lt_succ hjk) h
      exact hnext

/-- The calls give the items, one after the other. -/
theorem call_eq_getElem? (r : Reader) (k : Nat) : r.call k = (r.run.1.map (·.2))[k]? := by
  induction k generalizing r with
  | zero =>
    rcases hnext : r.next with ⟨_ | item, r'⟩
    · rw [run_of_next_none hnext, call, hnext]
      rfl
    · rw [run_of_next_some hnext, call, hnext]
      rfl
  | succ k ih =>
    rcases hnext : r.next with ⟨_ | item, r'⟩
    · have hspent : r.next.2.IsSpent := isSpent_next (by simp [hnext])
      rw [run_of_next_none hnext, call, call_of_isSpent hspent]
      rfl
    · rw [run_of_next_some hnext, call, hnext, ih]
      rfl

end Reader

/-- **Errors are final.** If the items of a text end with an error that is not due to the end of the
text, then any text that starts with it has the same items, at the same offsets, and ends with the
same error. And the calls give the items, one after the other: as soon as one of them has given an
error or nothing, all others give nothing. -/
theorem items_final (text : String) :
    (∀ e, (items text).getLast? = some (.error e) → ¬e.IsOpenEnded text → ∀ more : String,
        locatedItems (text ++ more) = locatedItems text) ∧
      (∀ k, (Reader.ofText text).call k = (items text)[k]?) ∧
      ∀ j, ((Reader.ofText text).call j = none ∨
          ∃ e, (Reader.ofText text).call j = some (.error e)) →
        ∀ k, j < k → (Reader.ofText text).call k = none := by
  refine ⟨fun e h hfinal more => ?_, (Reader.ofText text).call_eq_getElem?, fun j h k hjk => ?_⟩
  · exact locatedItems_append (List.mem_of_getLast? h) hfinal more
  · refine Reader.call_eq_none_of_lt hjk fun x hx => ?_
    rcases h with hnone | ⟨e, he⟩
    · cases hnone.symm.trans hx
    · cases he.symm.trans hx

/-- A text with an atom and with a vertical tab, which is white space but no layout. -/
def tabbed : String := "a\x0b"

theorem items_final_tabbed :
    (items tabbed).getLast? = some (.error (.invalidToken 1)) ∧
      ¬ReadError.IsOpenEnded tabbed (.invalidToken 1) ∧
      locatedItems (tabbed ++ "b)") = [(0, .ok (.atom "a")), (1, .error (.invalidToken 1))] ∧
      (Reader.ofText tabbed).call 1 = some (.error (.invalidToken 1)) ∧
      ∀ k, 1 < k → (Reader.ofText tabbed).call k = none := by
  have hlocated : locatedItems tabbed = [(0, .ok (.atom "a")), (1, .error (.invalidToken 1))] := by
    cbv
  have hlast : (items tabbed).getLast? = some (.error (.invalidToken 1)) := by
    rw [items, hlocated]
    rfl
  have hfinal : ¬ReadError.IsOpenEnded tabbed (.invalidToken 1) := by
    generalize he : ReadError.invalidToken 1 = e
    rintro (pos | htext)
    · cases he
    · have hmem : '"' ∈ tabbed.toList := by simp [htext]
      exact absurd hmem (by decide)
  obtain ⟨happend, hcall, hafter⟩ := items_final tabbed
  have herror : (Reader.ofText tabbed).call 1 = some (.error (.invalidToken 1)) := by
    rw [hcall, items, hlocated]
    rfl
  refine ⟨hlast, hfinal, ?_, herror, hafter 1 (.inr ⟨_, herror⟩)⟩
  rw [happend _ hlast hfinal, hlocated]

/-- More text can close a list and a quote. -/
example : items "(" = [.error (.unclosedOpen 0)] ∧ items ("(" ++ ")") = [.ok (.list [])] ∧
    items "\"" = [.error (.invalidToken 0)] ∧ items ("\"" ++ "\"") = [.ok (.atom "")] := by
  refine ⟨?_, ?_, ?_, ?_⟩ <;> cbv

end TermRules.Sexp

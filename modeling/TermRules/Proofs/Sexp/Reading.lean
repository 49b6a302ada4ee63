import TermRules.Sexp.Reader

/-!
# The reader and blank lexemes

The reader passes over blank lexemes, so that it can be followed on the other lexemes alone
(`solid`): the items, their offsets and the errors are the same (`readItem_solid`,
`Reader.run_solid`, `locatedItems_eq`). What a lexeme can do is said once for each kind of move
(`blank_of_move_skip`, `of_move_enter`, `of_move_complete`, `of_move_fail`). The equations of
`Reader.run` and of `parse` for a reading that fails or ends after its first item stand here too.
-/

namespace TermRules.Sexp

/-- The lexemes that are not blank. -/
def solid (ls : List Lexeme) : List Lexeme := ls.filter fun l => l.token ≠ .blank

theorem solid_cons_of_ne {l : Lexeme} (h : l.token ≠ .blank) (ls : List Lexeme) :
    solid (l :: ls) = l :: solid ls := by
  simp [solid, h]

theorem solid_cons_of_eq {l : Lexeme} (h : l.token = .blank) (ls : List Lexeme) :
    solid (l :: ls) = solid ls := by
  simp [solid, h]

/-! ## What a lexeme does -/

section Moves

variable {stack : List OpenList} {l : Lexeme}

theorem blank_of_move_skip (h : move stack l = .skip) : l.token = .blank := by
  unfold move at h
  split at h
  next hl => exact hl
  · split at h <;> cases h
  · split at h <;> cases h
  · cases h
  · split at h <;> cases h
  · cases h

theorem of_move_enter {opened : OpenList} (h : move stack l = .enter opened) :
    l.token = .opening ∧ stack.length < maxDepth ∧ opened = ⟨l.start, []⟩ := by
  unfold move at h
  split at h
  · cases h
  next hl =>
    split at h
    next hroom =>
      cases h
      exact ⟨hl, hroom, rfl⟩
    · cases h
  · split at h <;> cases h
  · cases h
  · split at h <;> cases h
  · cases h

/-- An S-expression ends with a closing parenthesis, or is an atom, bare or in quotes. -/
theorem of_move_complete {x : Sexp} {outer : List OpenList} (h : move stack l = .complete x outer) :
    (∃ innermost, l.token = .closing ∧ stack = innermost :: outer ∧
      x = .list innermost.members.reverse) ∨
    (∃ text, l.token = .atom text ∧ stack = outer ∧ x = .atom (String.ofList text)) ∨
    ∃ text content, l.token = .quoted text ∧ unquote text = .ok content ∧ stack = outer ∧
      x = .atom content := by
  unfold move at h
  split at h
  · cases h
  · split at h <;> cases h
  next hl =>
    split at h
    · cases h
    next innermost outer' =>
      cases h
      exact .inl ⟨innermost, hl, rfl, rfl⟩
  next text hl =>
    cases h
    exact .inr (.inl ⟨text, hl, rfl, rfl⟩)
  next text hl =>
    split at h
    next content hcontent =>
      cases h
      exact .inr (.inr ⟨text, content, hl, hcontent, rfl, rfl⟩)
    · cases h
  · cases h

/-- A lexeme fails if it opens one list too many, closes no list, has an unknown escape, or is no
token. -/
theorem of_move_fail {e : ReadError} (h : move stack l = .fail e) :
    (l.token = .opening ∧ maxDepth ≤ stack.length ∧ e = .tooDeep l.start) ∨
    (l.token = .closing ∧ stack = [] ∧ e = .unexpectedClose l.start) ∨
    (∃ text offset, l.token = .quoted text ∧ unquote text = .error offset ∧
      e = .invalidEscape (l.start + offset)) ∨
    (l.token = .invalid ∧ e = .invalidToken l.start) := by
  unfold move at h
  split at h
  · cases h
  next hl =>
    split at h
    · cases h
    next hroom =>
      cases h
      exact .inl ⟨hl, Nat.not_lt.mp hroom, rfl⟩
  next hl =>
    split at h
    · cases h
      exact .inr (.inl ⟨hl, rfl, rfl⟩)
    · cases h
  · cases h
  next text hl =>
    split at h
    · cases h
    next offset hoffset =>
      cases h
      exact .inr (.inr (.inl ⟨text, offset, hl, hoffset, rfl⟩))
  next hl =>
    cases h
    exact .inr (.inr (.inr ⟨hl, rfl⟩))

end Moves

/-! ## One item -/

/-- The outcome, with only the lexemes that are not blank left to read. -/
def Outcome.solid (o : Outcome) : Outcome := { o with rest := Sexp.solid o.rest }

theorem move_of_blank {l : Lexeme} (h : l.token = .blank) (stack : List OpenList) :
    move stack l = .skip := by
  simp [move, h]

theorem readItem_cons_of_blank {l : Lexeme} (h : l.token = .blank) (start : Nat)
    (stack : List OpenList) (ls : List Lexeme) :
    readItem start stack (l :: ls) = readItem start stack ls := by
  simp [readItem, move_of_blank h, h]

theorem readItem_solid (start : Nat) (stack : List OpenList) (ls : List Lexeme) :
    readItem start stack (solid ls) = (readItem start stack ls).solid := by
  induction ls generalizing start stack with
  | nil => cases stack <;> rfl
  | cons l ls ih =>
    by_cases hl : l.token = .blank
    · rw [solid_cons_of_eq hl, readItem_cons_of_blank hl, ih]
    · rw [solid_cons_of_ne hl]
      simp only [readItem]
      split
      · exact ih ..
      · exact ih ..
      · rfl
      · exact ih ..
      · rfl

/-! ## All items -/

namespace Reader

/-- The reading, with only the lexemes that are not blank ahead. -/
def solid (r : Reader) : Reader := { r with rest := Sexp.solid r.rest }

theorem next_solid (r : Reader) : r.solid.next = (r.next.1, r.next.2.solid) := by
  unfold next
  cases hfailed : r.failed with
  | true => simp [solid, hfailed]
  | false =>
    simp only [solid, hfailed, readItem_solid, Bool.false_eq_true, if_false]
    rfl

theorem run_of_next_none {r r' : Reader} (h : r.next = (none, r')) : r.run = ([], r') := by
  rw [run]
  split
  next h' => rw [h] at h'; cases h'; rfl
  next h' => rw [h] at h'; cases h'

theorem run_of_next_some {r r' : Reader} {item : Except ReadError Sexp}
    (h : r.next = (some item, r')) : r.run = ((r'.start, item) :: r'.run.1, r'.run.2) := by
  rw [run]
  split
  next h' => rw [h] at h'; cases h'
  next h' => rw [h] at h'; cases h'; rfl

theorem run_solid (r : Reader) : r.solid.run = (r.run.1, r.run.2.solid) := by
  generalize hn : r.rest.length = n
  induction n using Nat.strongRecOn generalizing r with
  | _ n ih =>
    rcases hr : r.next with ⟨item?, r'⟩
    have hsolid : r.solid.next = (item?, r'.solid) := by rw [next_solid, hr]
    cases item? with
    | none => rw [run_of_next_none hr, run_of_next_none hsolid]
    | some item =>
      have hlt : r'.rest.length < n := hn ▸ next_rest_length hr
      rw [run_of_next_some hr, run_of_next_some hsolid, ih _ hlt r' rfl]
      rfl

/-- Nothing follows an error. -/
theorem run_of_failed {r : Reader} (h : r.failed = true) : r.run = ([], r) :=
  run_of_next_none (by simp [next, h])

theorem run_of_item_none {r : Reader} (hr : r.failed = false)
    (h : (readItem r.start [] r.rest).item = none) : r.run.1 = [] := by
  have hnext : r.next = (none, after (readItem r.start [] r.rest)) := by
    simp [next, hr, h]
  rw [run_of_next_none hnext]

theorem run_of_item_error {r : Reader} {e : ReadError} (hr : r.failed = false)
    (h : (readItem r.start [] r.rest).item = some (.error e)) :
    r.run.1 = [((readItem r.start [] r.rest).start, .error e)] := by
  have hnext : r.next = (some (.error e), after (readItem r.start [] r.rest)) := by
    simp [next, hr, h]
  rw [run_of_next_some hnext, run_of_failed (by simp [after, h])]
  rfl

theorem run_of_item_ok {r : Reader} {x : Sexp} (hr : r.failed = false)
    (h : (readItem r.start [] r.rest).item = some (.ok x)) :
    r.run.1 =
      ((readItem r.start [] r.rest).start, .ok x) ::
        (run ⟨(readItem r.start [] r.rest).rest, (readItem r.start [] r.rest).start, false⟩).1 := by
  have hnext : r.next = (some (.ok x), after (readItem r.start [] r.rest)) := by
    simp [next, hr, h]
  rw [run_of_next_some hnext]
  simp [after, h]

theorem run_nil (start : Nat) : (run ⟨[], start, false⟩).1 = [] := by
  have hnext : next ⟨[], start, false⟩ = (none, ⟨[], start, false⟩) := rfl
  rw [run_of_next_none hnext]

end Reader

/-! ## Whole texts -/

/-- The reading of the lexemes of a text that are not blank, at its start. -/
def solidReader (text : String) : Reader := ⟨solid (lexemes text), 0, false⟩

theorem locatedItems_eq (text : String) : locatedItems text = (solidReader text).run.1 := by
  rw [show solidReader text = (Reader.ofText text).solid from rfl, Reader.run_solid, locatedItems]

theorem parse_of_item_error {text : String} {e : ReadError}
    (h : (readItem 0 [] (solid (lexemes text))).item = some (.error e)) :
    parse text = .error e := by
  simp only [parse, locatedItems_eq, Reader.run_of_item_error (r := solidReader text) rfl h]

theorem parse_of_item_ok {text : String} {x : Sexp} {start : Nat}
    (h : readItem 0 [] (solid (lexemes text)) = ⟨some (.ok x), start, []⟩) :
    parse text = .ok x := by
  have hrun : (solidReader text).run.1 = [(start, .ok x)] := by
    rw [Reader.run_of_item_ok (r := solidReader text) rfl (x := x) (by simp [solidReader, h])]
    simp [solidReader, h, Reader.run_nil]
  simp only [parse, locatedItems_eq, hrun]

end TermRules.Sexp

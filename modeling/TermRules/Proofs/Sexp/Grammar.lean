import TermRules.Proofs.Sexp.Reading

/-!
# The grammar of S-expressions

`Derives ls xs` says that the lexemes `ls`, none of them blank, are a derivation of the
S-expressions `xs` by the grammar

* an atom, bare or in quotes, is an S-expression, and
* an opening parenthesis, any number of S-expressions and a closing parenthesis are one.

The reader, which keeps the open lists in a stack and not in a recursion, follows derivations: where
a list is open, it passes over `ls` and adds `xs` to the list (`readItem_derives`), provided that no
list of `xs` lies too deep. At the top level it ends an item with each S-expression
(`readItem_derives_singleton`).
-/

namespace TermRules.Sexp

/-- The lexemes are a derivation of the S-expressions. -/
inductive Derives : List Lexeme → List Sexp → Prop
  | nil : Derives [] []
  | atom {l ls xs text} (hl : l.token = .atom text) (h : Derives ls xs) :
    Derives (l :: ls) (.atom (String.ofList text) :: xs)
  | quoted {l ls xs text content} (hl : l.token = .quoted text)
    (hcontent : unquote text = .ok content) (h : Derives ls xs) :
    Derives (l :: ls) (.atom content :: xs)
  | list {opening closing inner members ls xs} (hopening : opening.token = .opening)
    (hclosing : closing.token = .closing) (hinner : Derives inner members) (h : Derives ls xs) :
    Derives (opening :: (inner ++ closing :: ls)) (.list members :: xs)

theorem Derives.append {ls ms : List Lexeme} {xs ys : List Sexp} (h : Derives ls xs)
    (h' : Derives ms ys) : Derives (ls ++ ms) (xs ++ ys) := by
  induction h with
  | nil => exact h'
  | atom hl _ ih => exact .atom hl ih
  | quoted hl hcontent _ ih => exact .quoted hl hcontent ih
  | list hopening hclosing hinner _ _ ih =>
    simp only [List.cons_append, List.append_assoc]
    exact .list hopening hclosing hinner ih

/-! ## What the reader makes of single lexemes -/

section Steps

variable {l : Lexeme} (start : Nat) (ls : List Lexeme)

/-- The reading after the S-expression `x`, inside of the lists `stack`. -/
def readOn (start : Nat) (x : Sexp) (ls : List Lexeme) : List OpenList → Outcome
  | [] => ⟨some (.ok x), start, ls⟩
  | innermost :: outer => readItem start (innermost.add x :: outer) ls

/-- The offset of the last lexeme outside of all lists, after the lexeme `l`. -/
def startAfter (start : Nat) (l : Lexeme) (stack : List OpenList) : Nat :=
  if stack.isEmpty then l.start else start

@[simp]
theorem startAfter_nil : startAfter start l [] = l.start := rfl

@[simp]
theorem startAfter_cons (innermost : OpenList) (outer : List OpenList) :
    startAfter start l (innermost :: outer) = start := rfl

theorem readItem_complete {x : Sexp} {stack outer : List OpenList} (hl : l.token ≠ .blank)
    (h : move stack l = .complete x outer) :
    readItem start stack (l :: ls) = readOn (startAfter start l stack) x ls outer := by
  cases outer <;> simp [readItem, h, hl, readOn, startAfter]

theorem readItem_atom {text : List Char} (hl : l.token = .atom text) (stack : List OpenList) :
    readItem start stack (l :: ls) =
      readOn (startAfter start l stack) (.atom (String.ofList text)) ls stack :=
  readItem_complete start ls (by simp [hl]) (by simp [move, hl])

theorem readItem_quoted {text : List Char} {content : String} (hl : l.token = .quoted text)
    (hcontent : unquote text = .ok content) (stack : List OpenList) :
    readItem start stack (l :: ls) =
      readOn (startAfter start l stack) (.atom content) ls stack :=
  readItem_complete start ls (by simp [hl]) (by simp [move, hl, hcontent])

theorem readItem_opening (hl : l.token = .opening) {stack : List OpenList}
    (h : stack.length < maxDepth) :
    readItem start stack (l :: ls) =
      readItem (startAfter start l stack) (⟨l.start, []⟩ :: stack) ls := by
  simp [readItem, move, hl, h, startAfter]

theorem readItem_opening_tooDeep (hl : l.token = .opening) {stack : List OpenList}
    (h : maxDepth ≤ stack.length) :
    (readItem start stack (l :: ls)).item = some (.error (.tooDeep l.start)) := by
  simp [readItem, move, hl, Nat.not_lt.mpr h]

theorem readItem_closing (hl : l.token = .closing) (innermost : OpenList)
    (outer : List OpenList) :
    readItem start (innermost :: outer) (l :: ls) =
      readOn start (.list innermost.members.reverse) ls outer := by
  have hmove : move (innermost :: outer) l = .complete (.list innermost.members.reverse) outer := by
    simp [move, hl]
  rw [readItem_complete start ls (by simp [hl]) hmove, startAfter_cons]

end Steps

/-! ## What the reader makes of derivations -/

/-- The open list with further members. -/
def OpenList.addAll (l : OpenList) (xs : List Sexp) : OpenList :=
  { l with members := xs.reverse ++ l.members }

theorem OpenList.addAll_cons (l : OpenList) (x : Sexp) (xs : List Sexp) :
    l.addAll (x :: xs) = (l.add x).addAll xs := by
  simp [addAll, add]

/-- Inside of a list, the reader passes over a derivation and collects what it derives. -/
theorem readItem_derives {ls : List Lexeme} {xs : List Sexp} (h : Derives ls xs) (start : Nat)
    (innermost : OpenList) (outer : List OpenList) (rest : List Lexeme)
    (hdepth : outer.length + 1 + depthAll xs ≤ maxDepth) :
    readItem start (innermost :: outer) (ls ++ rest) =
      readItem start (innermost.addAll xs :: outer) rest := by
  -- the stack is arbitrary because the members of a list are read with that list on top of it
  induction h generalizing innermost outer rest with
  | nil => rfl
  | atom hl _ ih =>
    simp only [depthAll, depth] at hdepth
    rw [List.cons_append, readItem_atom _ _ hl, OpenList.addAll_cons]
    exact ih _ _ _ (by omega)
  | quoted hl hcontent _ ih =>
    simp only [depthAll, depth] at hdepth
    rw [List.cons_append, readItem_quoted _ _ hl hcontent, OpenList.addAll_cons]
    exact ih _ _ _ (by omega)
  | @list opening closing inner members ls xs hopening hclosing _ _ ihinner ih =>
    simp only [depthAll, depth] at hdepth
    have hroom : (innermost :: outer).length < maxDepth := by
      simp only [List.length_cons]
      omega
    have hinside : (innermost :: outer).length + 1 + depthAll members ≤ maxDepth := by
      simp only [List.length_cons]
      omega
    rw [List.cons_append, readItem_opening _ _ hopening hroom, startAfter_cons, List.append_assoc,
      ihinner _ _ _ hinside, List.cons_append, readItem_closing _ _ hclosing, OpenList.addAll_cons]
    simp only [OpenList.addAll, List.append_nil, List.reverse_reverse, readOn]
    exact ih _ _ _ (by omega)

/-- Outside of all lists, the reader ends an item with a derivation of an S-expression. -/
theorem readItem_derives_singleton {ls : List Lexeme} {x : Sexp} (h : Derives ls [x])
    (hdepth : x.depth ≤ maxDepth) (start : Nat) (rest : List Lexeme) :
    ∃ l ls', ls = l :: ls' ∧ readItem start [] (ls ++ rest) = ⟨some (.ok x), l.start, rest⟩ := by
  generalize hxs : [x] = xs at h
  cases h with
  | nil => cases hxs
  | atom hl h =>
    cases hxs
    cases h
    exact ⟨_, _, rfl, readItem_atom _ _ hl []⟩
  | quoted hl hcontent h =>
    cases hxs
    cases h
    exact ⟨_, _, rfl, readItem_quoted _ _ hl hcontent []⟩
  | @list opening closing inner members ls xs hopening hclosing hinner h =>
    cases hxs
    cases h
    refine ⟨opening, inner ++ [closing], rfl, ?_⟩
    simp only [depth] at hdepth
    have hinside : ([] : List OpenList).length + 1 + depthAll members ≤ maxDepth := by
      simp only [List.length_nil]
      omega
    rw [List.cons_append, readItem_opening _ _ hopening (by simp [maxDepth]), List.append_assoc,
      readItem_derives hinner _ _ _ _ hinside, List.cons_append, readItem_closing _ _ hclosing]
    simp [OpenList.addAll, readOn]

theorem parse_of_derives {text : String} {x : Sexp} (h : Derives (solid (lexemes text)) [x])
    (hdepth : x.depth ≤ maxDepth) : parse text = .ok x := by
  obtain ⟨l, ls', -, hread⟩ := readItem_derives_singleton h hdepth 0 []
  rw [List.append_nil] at hread
  exact parse_of_item_ok hread

end TermRules.Sexp

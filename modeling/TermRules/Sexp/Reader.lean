import TermRules.Sexp.Basic
import TermRules.Sexp.Token

/-!
# Reading of S-expressions

A text is read as a sequence of S-expressions, the items of the text, up to the first error. The
reader goes once over the lexemes and keeps the lists that are open in a stack, innermost first.

* `readItem` reads one item.
* `Reader` is a reading in progress, with `Reader.next` for one item and `Reader.run` for all.
* `parse` reads a text that has to hold exactly one item.
-/

namespace TermRules.Sexp

/-- Why a text is not a sequence of S-expressions, with the offset at which this shows. -/
inductive ReadError
  /-- A closing parenthesis where no list is open. -/
  | unexpectedClose (pos : Nat)
  /-- An opening parenthesis whose list is still open at the end. -/
  | unclosedOpen (pos : Nat)
  /-- An opening parenthesis of one list too many. -/
  | tooDeep (pos : Nat)
  /-- Characters that are no token. -/
  | invalidToken (pos : Nat)
  /-- A backslash that starts no escape. -/
  | invalidEscape (pos : Nat)
  /-- No item where one is expected. -/
  | noItem
  /-- A second item where one is expected. -/
  | trailing (pos : Nat)
  deriving DecidableEq, Repr

namespace ReadError

/-- The text of the error. -/
def message : ReadError → String
  | unexpectedClose pos => s!"unexpected `)` at offset {pos}"
  | unclosedOpen pos => s!"unclosed `(` at offset {pos}"
  | tooDeep pos => s!"more than {maxDepth} nested lists at offset {pos}"
  | invalidToken pos => s!"invalid token at offset {pos}"
  | invalidEscape pos => s!"invalid escape at offset {pos}"
  | noItem => "expected an S-expression"
  | trailing pos => s!"unexpected input at offset {pos}"

/-- The offset at which the error shows, if it has one. -/
def offset? : ReadError → Option Nat
  | unexpectedClose pos | unclosedOpen pos | tooDeep pos | invalidToken pos | invalidEscape pos
  | trailing pos => some pos
  | noItem => none

end ReadError

/-! ## Reading of one item -/

/-- An open list: where it starts, and its members so far, the last one first. -/
structure OpenList where
  start : Nat
  members : List Sexp

/-- The open list with one more member. -/
def OpenList.add (l : OpenList) (x : Sexp) : OpenList := { l with members := x :: l.members }

/-- What a lexeme does. -/
inductive Move
  /-- Nothing. -/
  | skip
  /-- It opens a list. -/
  | enter (l : OpenList)
  /-- It ends the S-expression `x`, outside of which the lists `outer` are open. -/
  | complete (x : Sexp) (outer : List OpenList)
  | fail (e : ReadError)

/-- What a lexeme does while the lists `stack` are open. -/
def move (stack : List OpenList) (l : Lexeme) : Move :=
  match l.token with
  | .blank => .skip
  | .opening =>
    if stack.length < maxDepth then .enter ⟨l.start, []⟩ else .fail (.tooDeep l.start)
  | .closing =>
    match stack with
    | [] => .fail (.unexpectedClose l.start)
    | innermost :: outer => .complete (.list innermost.members.reverse) outer
  | .atom text => .complete (.atom (String.ofList text)) stack
  | .quoted text =>
    match unquote text with
    | .ok content => .complete (.atom content) stack
    | .error offset => .fail (.invalidEscape (l.start + offset))
  | .invalid => .fail (.invalidToken l.start)

/-- The outcome of reading one item: the item or an error, or nothing at the end of the text; the
offset of the last lexeme, blanks apart, that stood outside of all lists; and what follows. -/
structure Outcome where
  item : Option (Except ReadError Sexp)
  start : Nat
  rest : List Lexeme

/-- Reads up to the end of an item, while the lists `stack` are open and `start` is the offset of
the last lexeme outside of all lists. -/
def readItem (start : Nat) (stack : List OpenList) : List Lexeme → Outcome
  | [] =>
    match stack with
    | [] => ⟨none, start, []⟩
    | innermost :: _ => ⟨some (.error (.unclosedOpen innermost.start)), start, []⟩
  | l :: ls =>
    let start := if stack.isEmpty && l.token ≠ .blank then l.start else start
    match move stack l with
    | .skip => readItem start stack ls
    | .enter opened => readItem start (opened :: stack) ls
    | .complete x [] => ⟨some (.ok x), start, ls⟩
    | .complete x (innermost :: outer) => readItem start (innermost.add x :: outer) ls
    | .fail e => ⟨some (.error e), start, ls⟩

theorem readItem_rest_length (start : Nat) (stack : List OpenList) (ls : List Lexeme) :
    (readItem start stack ls).rest.length ≤ ls.length := by
  induction ls generalizing start stack with
  | nil => cases stack <;> simp [readItem]
  | cons l ls ih =>
    simp only [readItem, List.length_cons]
    split
    case h_3 => simp
    case h_5 => simp
    all_goals exact Nat.le_succ_of_le (ih ..)

theorem readItem_rest_length_lt {start : Nat} {ls : List Lexeme} {item : Except ReadError Sexp}
    (h : (readItem start [] ls).item = some item) :
    (readItem start [] ls).rest.length < ls.length := by
  cases ls with
  | nil => simp [readItem] at h
  | cons l ls =>
    simp only [readItem, List.length_cons]
    split
    case h_3 => simp
    case h_5 => simp
    all_goals exact Nat.lt_succ_of_le (readItem_rest_length ..)

/-! ## Reading of all items -/

/-- A reading in progress: the lexemes ahead, the offset of the last lexeme outside of all lists,
and whether there was an error. -/
structure Reader where
  rest : List Lexeme
  start : Nat
  failed : Bool

namespace Reader

/-- The reading of a text, at its start. -/
def ofText (text : String) : Reader := ⟨lexemes text, 0, false⟩

/-- The reading after the outcome of an item. -/
def after (o : Outcome) : Reader :=
  ⟨o.rest, o.start, match o.item with | some (.error _) => true | _ => false⟩

/-- The next item. After an error there is none. -/
def next (r : Reader) : Option (Except ReadError Sexp) × Reader :=
  if r.failed then (none, r)
  else
    let o := readItem r.start [] r.rest
    (o.item, after o)

theorem next_rest_length {r r' : Reader} {item : Except ReadError Sexp}
    (h : r.next = (some item, r')) : r'.rest.length < r.rest.length := by
  simp only [next] at h
  split at h
  · simp at h
  · obtain ⟨h₁, rfl⟩ := Prod.mk.inj h
    exact readItem_rest_length_lt h₁

/-- All items, each with the offset at which it starts, and the reading at its end. An error is
the last item. -/
def run (r : Reader) : List (Nat × Except ReadError Sexp) × Reader :=
  match _h : r.next with
  | (none, r') => ([], r')
  | (some item, r') =>
    let rest := r'.run
    ((r'.start, item) :: rest.1, rest.2)
termination_by r.rest.length
decreasing_by all_goals exact next_rest_length _h

end Reader

/-- The items of a text, each with the offset at which it starts. An error is the last item. -/
def locatedItems (text : String) : List (Nat × Except ReadError Sexp) := (Reader.ofText text).run.1

/-- The items of a text. An error is the last item. -/
def items (text : String) : List (Except ReadError Sexp) := (locatedItems text).map (·.2)

/-- The S-expression that a text consists of. -/
def parse (text : String) : Except ReadError Sexp :=
  match locatedItems text with
  | [] => .error .noItem
  | (_, .error e) :: _ => .error e
  | [(_, .ok x)] => .ok x
  | (_, .ok _) :: (_, .error e) :: _ => .error e
  | (_, .ok _) :: (start, .ok _) :: _ => .error (.trailing start)

end TermRules.Sexp

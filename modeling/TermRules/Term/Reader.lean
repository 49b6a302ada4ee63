import TermRules.Sexp.Reader
import TermRules.Term.Printer

/-!
# Reading of terms

A term is read from a list that starts with a class and a name. The further members of the list,
its items, are attributes, children and atoms, in any order; of several attributes with one key
the last counts. Only arguments and instructions take an atom, and only one. The class of a child
is looked at before the child is read, so reading goes no deeper than classes do.

* `Term.ofSexp` reads an S-expression.
* `Term.parse` reads a text of exactly one term, and `Term.readAll` a text of any number.
-/

namespace TermRules.Term

/-- Why an S-expression or a text is not a term. -/
inductive ReadError
  /-- The text does not consist of S-expressions. -/
  | sexp (e : Sexp.ReadError)
  /-- An atom, or a list that does not start with an atom. -/
  | expectedTerm (found : Sexp)
  | unknownClass (name : String)
  | expectedName (cls : TermClass)
  | unexpectedChild (parent child : TermClass)
  | malformedAttr (found : Sexp)
  | unexpectedAtom (cls : TermClass) (text : String)
  /-- The atom of an argument is no intent, for the given reason. -/
  | intent (reason : String)
  deriving DecidableEq

/-- The text of the error. -/
def ReadError.message : ReadError → String
  | .sexp e => e.message
  | .expectedTerm found => s!"expected a term, found `{found.print}`"
  | .unknownClass name => s!"unknown term class `{name}`"
  | .expectedName cls => s!"expected a name for {cls.name}"
  | .unexpectedChild parent child => s!"{child.name} cannot be a child of {parent.name}"
  | .malformedAttr found => s!"malformed attribute `{found.print}`"
  | .unexpectedAtom cls text => s!"unexpected `{text}` in {cls.name}"
  | .intent reason => reason

/-! ## Items -/

/-- An item of a term. -/
inductive Item
  | atom (text : String)
  | attr (key : String) (value : Option String)
  | child (t : Term)

/-- What an item is meant to be, before children are read. -/
inductive ItemForm
  | atom (text : String)
  | attr (key : String) (value : Option String)
  | child

/-- The form of an item of a term of the class `cls`. -/
def itemForm (cls : TermClass) : Sexp → Except ReadError ItemForm
  | .atom text => .ok (.atom text)
  | .list members =>
    if Sexp.headAtom? members = some attrMark then
      match members with
      | [_, .atom key] => .ok (.attr key none)
      | [_, .atom key, .atom value] => .ok (.attr key (some value))
      | _ => .error (.malformedAttr (.list members))
    else
      match (Sexp.headAtom? members).bind TermClass.ofName? with
      | some child =>
        if cls.mayContain child then .ok .child else .error (.unexpectedChild cls child)
      | none => .ok .child

namespace Item

/-- The text of an atom. -/
def atom? : Item → Option String
  | atom text => some text
  | _ => none

/-- An attribute. -/
def attr? : Item → Option (String × Option String)
  | attr key value => some (key, value)
  | _ => none

/-- A child. -/
def child? : Item → Option Term
  | child t => some t
  | _ => none

end Item

/-! ## Assembling a term from its items -/

/-- Whether terms of a class take an atom. -/
def takesAtom (cls : TermClass) : Bool := cls == .argument || cls.isInstruction

/-- The atom among the items of a term, if there is one. -/
def soleAtom? (cls : TermClass) : List String → Except ReadError (Option String)
  | [] => .ok none
  | [text] => if takesAtom cls then .ok (some text) else .error (.unexpectedAtom cls text)
  | _ :: text :: _ => .error (.unexpectedAtom cls text)

/-- The parts that consist of the given children. -/
def partsOf (cls : TermClass) (children : List Term) : Except ReadError (Parts cls) :=
  match children.find? fun t => !cls.mayContain t.cls with
  | some t => .error (.unexpectedChild cls t.cls)
  | none => .ok (Parts.ofTerms cls children)

/-- The payload that the atom among the items denotes. -/
def payloadOf : (cls : TermClass) → Option String → Except ReadError (Payload cls)
  | .argument, none => .ok none
  | .argument, some text =>
    match Intent.read text with
    | .ok intent => .ok (some intent)
    | .error reason => .error (.intent reason)
  | .phi, code | .definition, code | .jump, code => .ok code
  | .program, _ | .subroutine, _ | .block, _ => .ok ()

/-- The term with the given items. -/
def assemble (cls : TermClass) (name : String) (items : List Item) : Except ReadError Term := do
  let text? ← soleAtom? cls (items.filterMap Item.atom?)
  let parts ← partsOf cls (items.filterMap Item.child?)
  let payload ← payloadOf cls text?
  return ⟨cls, { name, attrs := .ofList (items.filterMap Item.attr?), payload, parts }⟩

/-! ## Reading -/

section Reading

variable {m : Type → Type} [Monad m]

/-- The outcome, reached without effects. -/
def complete {α : Type} (outcome : Except ReadError α) : ExceptT ReadError m α :=
  .mk (pure outcome)

/-- An item of a term of the class `cls`, where `read` reads it if it is taken for a child. -/
def readItem (cls : TermClass) (x : Sexp) (read : Unit → ExceptT ReadError m Term) :
    ExceptT ReadError m Item := do
  match ← complete (itemForm cls x) with
  | .atom text => pure (.atom text)
  | .attr key value => pure (.attr key value)
  | .child => Item.child <$> read ()

variable (child : Sexp → (Unit → ExceptT ReadError m Term) → ExceptT ReadError m Term)

mutual

/-- The term that an S-expression denotes. Its children are read by `child`, which is given each of
them together with a way to read it. -/
def readTerm : Sexp → ExceptT ReadError m Term
  | .list (.atom cls :: rest) =>
    match TermClass.ofName? cls with
    | none => throw (.unknownClass cls)
    | some cls =>
      match rest with
      | .atom name :: items => do complete (assemble cls name (← readItems cls items))
      | _ => throw (.expectedName cls)
  | found => throw (.expectedTerm found)

/-- The items of a term of the class `cls`. -/
def readItems (cls : TermClass) : List Sexp → ExceptT ReadError m (List Item)
  | [] => pure []
  | x :: xs => do
    let item ← readItem cls x fun _ => child x fun _ => readTerm x
    return item :: (← readItems cls xs)

end

end Reading

/-- The term that an S-expression denotes. -/
def ofSexp (x : Sexp) : Except ReadError Term := readTerm (m := Id) (fun _ read => read ()) x

/-- The items of a term of the class `cls`. -/
def itemsOf (cls : TermClass) (xs : List Sexp) : Except ReadError (List Item) :=
  readItems (m := Id) (fun _ read => read ()) cls xs

/-- An item of a term of the class `cls`. -/
def itemOf (cls : TermClass) (x : Sexp) : Except ReadError Item :=
  readItem (m := Id) cls x fun _ => ofSexp x

theorem bind_id_eq {ε α β : Type} (x : Except ε α) (f : α → Except ε β) :
    @bind (ExceptT ε Id) _ α β x f = x >>= f := by
  cases x <;> rfl

theorem itemOf_eq (cls : TermClass) (x : Sexp) :
    itemOf cls x = (do
      match ← itemForm cls x with
      | .atom text => pure (.atom text)
      | .attr key value => pure (.attr key value)
      | .child => Item.child <$> ofSexp x) := by
  refine (bind_id_eq (itemForm cls x) _).trans (congrArg _ (funext fun form => ?_))
  cases form with
  | atom text => rfl
  | attr key value => rfl
  | child => cases ofSexp x <;> rfl

theorem itemsOf_nil (cls : TermClass) : itemsOf cls [] = .ok [] := rfl

theorem itemsOf_cons (cls : TermClass) (x : Sexp) (xs : List Sexp) :
    itemsOf cls (x :: xs) = do return (← itemOf cls x) :: (← itemsOf cls xs) := by
  refine (bind_id_eq (itemOf cls x) _).trans (congrArg _ (funext fun item => ?_))
  exact bind_id_eq (itemsOf cls xs) _

theorem ofSexp_eq (x : Sexp) :
    ofSexp x =
      match x with
      | .list (.atom text :: rest) =>
        match TermClass.ofName? text with
        | none => .error (.unknownClass text)
        | some cls =>
          match rest with
          | .atom name :: items => itemsOf cls items >>= assemble cls name
          | _ => .error (.expectedName cls)
      | found => .error (.expectedTerm found) := by
  rcases x with text | (_ | ⟨text | members, rest⟩)
  · rfl
  · rfl
  · simp only
    rw [ofSexp, readTerm]
    cases TermClass.ofName? text with
    | none => rfl
    | some cls =>
      rcases rest with _ | ⟨name | members, items⟩
      · rfl
      · exact bind_id_eq (itemsOf cls items) (assemble cls name)
      · rfl
  · rfl

/-- The term that an item of a text denotes. -/
def ofItem : Except Sexp.ReadError Sexp → Except ReadError Term
  | .ok x => ofSexp x
  | .error e => .error (.sexp e)

/-- The term that a text consists of. -/
def parse (text : String) : Except ReadError Term := ofItem (Sexp.parse text)

/-- The terms of a text. An item of the text that is not a term gives an error of its own. -/
def readAll (text : String) : List (Except ReadError Term) := (Sexp.items text).map ofItem

end TermRules.Term

import TermRules.Proofs.Term.Grammar

/-!
# How deep reading goes

Reading a term calls itself for the items that are taken for children. The class of a child is
looked at before the child is read, and terms are lower than those they stand in. So calls are
nested five deep at most, however deep the lists are: `ofSexp_within_five`.

To say so, the calls are made explicit: the reader leaves it open how children are read
(`readTerm`). `ofSexpWith read` is a single call of it, in which `read` stands for the calls that it
makes, and `ofSexpWithin n` gives up where more than `n` calls are nested. What may be called for is
said by `Calls`, along which `callBound` goes down (`callBound_lt_of_calls`). Only for an item that
is no term does a chain of calls get below instructions (`isLongestChain_of_calls`). The printing of
S-expressions inside the texts of errors goes as deep as they do; it is not part of reading and is
not counted.

Since the class comes first, nothing that stands behind the class of a child in the wrong place is
looked at, neither in the child nor after it (`ofSexp_of_unexpectedChild`), also if the list that
the child stands in is an item of further lists (`ReadAlike.fill`).
-/

namespace TermRules.Term

/-! ## Reading that may give up -/

/-- The term that an S-expression denotes, where `read` reads children. -/
def ofSexpWith (read : Sexp → ExceptT ReadError Option Term) :
    Sexp → ExceptT ReadError Option Term :=
  readTerm fun y _ => read y

/-- The term that an S-expression denotes, read with at most `n` nested calls. Where more are
needed, reading gives up. -/
def ofSexpWithin : Nat → Sexp → ExceptT ReadError Option Term
  | 0, _ => .mk none
  | n + 1, x => ofSexpWith (ofSexpWithin n) x

theorem complete_bind {α β : Type} (x : Except ReadError α) (f : α → Except ReadError β) :
    (complete x >>= fun a => complete (f a) : ExceptT ReadError Option β) =
      complete (x >>= f) := by
  cases x <;> rfl

/-! ## The calls of a call -/

/-- Reading the first S-expression may call for the second: this is an item of the first, which is a
list of a class, a name and items, and it is taken for a child. -/
inductive Calls : Sexp → Sexp → Prop
  | intro {text cls name items y} (hcls : TermClass.ofName? text = some cls) (hy : y ∈ items)
    (hform : itemForm cls y = .ok .child) :
    Calls (.list (.atom text :: .atom name :: items)) y

section Calls

variable {read : Sexp → ExceptT ReadError Option Term} {cls : TermClass}

theorem readItem_eq {x : Sexp}
    (h : itemForm cls x = .ok .child → read x = complete (ofSexp x)) :
    readItem cls x (fun _ => read x) = complete (itemOf cls x) := by
  rw [itemOf_eq, readItem]
  cases hform : itemForm cls x with
  | error e => rfl
  | ok form =>
    cases form with
    | atom text => rfl
    | attr key value => rfl
    | child =>
      change Item.child <$> read x = _
      rw [h hform]
      cases ofSexp x <;> rfl

theorem readItems_eq {xs : List Sexp}
    (h : ∀ x ∈ xs, itemForm cls x = .ok .child → read x = complete (ofSexp x)) :
    readItems (fun y _ => read y) cls xs = complete (itemsOf cls xs) := by
  induction xs with
  | nil => rfl
  | cons x xs ih =>
    obtain ⟨hx, hxs⟩ := List.forall_mem_cons.mp h
    rw [readItems, readItem_eq hx, ih hxs, itemsOf_cons]
    cases itemOf cls x with
    | error e => rfl
    | ok item => cases itemsOf cls xs <;> rfl

/-- A call gives the outcome of reading if the calls that it makes do. -/
theorem ofSexpWith_eq {x : Sexp} (h : ∀ y, Calls x y → read y = complete (ofSexp y)) :
    ofSexpWith read x = complete (ofSexp x) := by
  rcases x with text | (_ | ⟨text | members, rest⟩)
  · rfl
  · rfl
  · rw [ofSexp_eq, ofSexpWith, readTerm]
    simp only
    cases hcls : TermClass.ofName? text with
    | none => rfl
    | some cls =>
      rcases rest with _ | ⟨name | members, items⟩
      · rfl
      · simp only
        rw [readItems_eq fun y hy hform => h y (.intro hcls hy hform)]
        exact complete_bind _ _
      · rfl
  · rfl

end Calls

/-! ## The depth of calls -/

/-- The class that an S-expression starts with, if it is a list that starts with one. -/
def leadingClass? : Sexp → Option TermClass
  | .atom _ => none
  | .list members => (Sexp.headAtom? members).bind TermClass.ofName?

/-- A bound on the number of calls that are nested when an S-expression is read: one for each class
from its own down to the lowest, and one for an item that is no term. -/
def callBound (x : Sexp) : Nat :=
  match leadingClass? x with
  | some cls => cls.height + 2
  | none => 1

theorem callBound_le_five (x : Sexp) : callBound x ≤ 5 := by
  unfold callBound
  split
  next cls _ => cases cls <;> decide
  next => decide

/-- What is taken for a child starts with a class that may stand there, or with none. -/
theorem mayContain_of_leadingClass? {cls child : TermClass} {x : Sexp}
    (h : itemForm cls x = .ok .child) (hx : leadingClass? x = some child) :
    cls.mayContain child = true := by
  cases x with
  | atom text => cases h
  | list members =>
    rw [leadingClass?] at hx
    simp only [itemForm, hx] at h
    split at h
    · split at h <;> cases h
    · split at h
      next hcontain => exact hcontain
      · cases h

theorem exists_leadingClass?_of_calls {x y : Sexp} (h : Calls x y) :
    ∃ cls, leadingClass? x = some cls ∧
      ∀ child, leadingClass? y = some child → cls.mayContain child = true := by
  obtain ⟨hcls, -, hform⟩ := h
  exact ⟨_, hcls, fun child hchild => mayContain_of_leadingClass? hform hchild⟩

theorem callBound_lt_of_calls {x y : Sexp} (h : Calls x y) : callBound y < callBound x := by
  obtain ⟨cls, hcls, hchild⟩ := exists_leadingClass?_of_calls h
  rw [callBound, callBound, hcls]
  cases hy : leadingClass? y with
  | none =>
    simp only
    omega
  | some child =>
    have := TermClass.height_lt_of_mayContain (hchild child hy)
    simp only
    omega

theorem ofSexpWithin_of_callBound_le {n : Nat} {x : Sexp} (h : callBound x ≤ n) :
    ofSexpWithin n x = complete (ofSexp x) := by
  induction n generalizing x with
  | zero =>
    rw [callBound] at h
    split at h <;> cases h
  | succ n ih =>
    refine ofSexpWith_eq fun y hy => ih ?_
    have := callBound_lt_of_calls hy
    omega

/-! ## The longest chains of calls -/

theorem exists_error_of_leadingClass? {x : Sexp} (h : leadingClass? x = none) :
    ∃ e, ofSexp x = .error e := by
  cases hx : ofSexp x with
  | error e => exact ⟨e, rfl⟩
  | ok t =>
    obtain ⟨cls, name, xs, items, rfl, -⟩ := ofSexp_eq_ok_iff.mp hx
    cases (TermClass.ofName?_name cls).symm.trans h

/-- The classes of four terms that stand in one another. -/
theorem classes_of_mayContain {a b c d : TermClass} (hab : a.mayContain b = true)
    (hbc : b.mayContain c = true) (hcd : c.mayContain d = true) :
    a = .program ∧ b = .subroutine ∧ c = .block ∧ d.isInstruction = true := by
  cases a <;> cases b <;> cases hab <;> cases c <;> cases hbc <;> cases d <;> cases hcd <;>
    exact ⟨rfl, rfl, rfl, rfl⟩

theorem mayContain_of_isInstruction {cls : TermClass} (h : cls.isInstruction = true)
    (child : TermClass) : cls.mayContain child = false := by
  cases cls <;> cases h <;> rfl

/-- The S-expressions of five nested calls: those of a program, a subroutine, a block and an
instruction, and one that is rejected. -/
structure IsLongestChain (a b c d e : Sexp) : Prop where
  program : leadingClass? a = some .program
  subroutine : leadingClass? b = some .subroutine
  block : leadingClass? c = some .block
  instruction : ∃ cls, leadingClass? d = some cls ∧ cls.isInstruction = true
  rejected : ∃ error, ofSexp e = .error error

theorem isLongestChain_of_calls {a b c d e : Sexp} (hab : Calls a b) (hbc : Calls b c)
    (hcd : Calls c d) (hde : Calls d e) : IsLongestChain a b c d e := by
  obtain ⟨ca, ha, hab⟩ := exists_leadingClass?_of_calls hab
  obtain ⟨cb, hb, hbc⟩ := exists_leadingClass?_of_calls hbc
  obtain ⟨cc, hc, hcd⟩ := exists_leadingClass?_of_calls hcd
  obtain ⟨cd, hd, hde⟩ := exists_leadingClass?_of_calls hde
  obtain ⟨rfl, rfl, rfl, hinstruction⟩ :=
    classes_of_mayContain (hab cb hb) (hbc cc hc) (hcd cd hd)
  have he : leadingClass? e = none := by
    rw [Option.eq_none_iff_forall_ne_some]
    intro ce he
    have hcontain := hde ce he
    rw [mayContain_of_isInstruction hinstruction] at hcontain
    cases hcontain
  exact ⟨ha, hb, hc, ⟨cd, hd, hinstruction⟩, exists_error_of_leadingClass? he⟩

/-! ## What is not looked at -/

/-- A class, a name, and items around a place for one more. -/
structure Frame where
  cls : TermClass
  name : String
  before : List Sexp
  after : List Sexp

/-- The list with an S-expression at the free place. -/
def Frame.fill (F : Frame) (x : Sexp) : Sexp :=
  .list (.atom F.cls.name :: .atom F.name :: (F.before ++ x :: F.after))

/-- The S-expression inside of several lists, of which the outermost comes first. -/
def fill (Fs : List Frame) (x : Sexp) : Sexp := Fs.foldr Frame.fill x

/-- Reading makes no difference between the two, neither by themselves nor as items. -/
structure ReadAlike (x y : Sexp) : Prop where
  ofSexp_eq : ofSexp x = ofSexp y
  itemForm_eq : ∀ cls, itemForm cls x = itemForm cls y

theorem ReadAlike.itemOf_eq {x y : Sexp} (h : ReadAlike x y) (cls : TermClass) :
    itemOf cls x = itemOf cls y := by
  rw [Term.itemOf_eq, Term.itemOf_eq, h.itemForm_eq, h.ofSexp_eq]

section Items

variable {cls : TermClass} {x y : Sexp} {e : ReadError} (before after : List Sexp)

theorem itemsOf_congr (h : itemOf cls x = itemOf cls y) :
    itemsOf cls (before ++ x :: after) = itemsOf cls (before ++ y :: after) := by
  induction before with
  | nil => rw [List.nil_append, List.nil_append, itemsOf_cons, itemsOf_cons, h]
  | cons b before ih =>
    rw [List.cons_append, List.cons_append, itemsOf_cons, itemsOf_cons, ih]

/-- Items are read up to the first error. -/
theorem itemsOf_of_error (h : itemOf cls x = .error e) :
    itemsOf cls (before ++ x :: after) = itemsOf cls before >>= fun _ => .error e := by
  induction before with
  | nil =>
    rw [List.nil_append, itemsOf_cons, h, itemsOf_nil]
    rfl
  | cons b before ih =>
    rw [List.cons_append, itemsOf_cons, itemsOf_cons, ih]
    cases itemOf cls b with
    | error e' => rfl
    | ok item => cases itemsOf cls before <;> rfl

end Items

theorem Frame.calls_fill {F : Frame} {x : Sexp} (h : itemForm F.cls x = .ok .child) :
    Calls (F.fill x) x :=
  .intro (TermClass.ofName?_name F.cls) (List.mem_append_right F.before List.mem_cons_self) h

theorem ofSexp_fill (F : Frame) (x : Sexp) :
    ofSexp (F.fill x) = itemsOf F.cls (F.before ++ x :: F.after) >>= assemble F.cls F.name := by
  rw [Frame.fill, ofSexp_eq]
  simp only [TermClass.ofName?_name]

/-- A list that starts with a class is taken for a child where the class may stand. -/
theorem itemForm_of_class (cls child : TermClass) (rest : List Sexp) :
    itemForm cls (.list (.atom child.name :: rest)) =
      if cls.mayContain child then .ok .child else .error (.unexpectedChild cls child) := by
  simp [itemForm, Sexp.headAtom?, Sexp.atom?, name_ne_attrMark, TermClass.ofName?_name]

theorem itemForm_fill (cls : TermClass) (F : Frame) (x : Sexp) :
    itemForm cls (F.fill x) =
      if cls.mayContain F.cls then .ok .child else .error (.unexpectedChild cls F.cls) :=
  itemForm_of_class cls F.cls _

theorem ReadAlike.fill {x y : Sexp} (h : ReadAlike x y) (Fs : List Frame) :
    ReadAlike (fill Fs x) (fill Fs y) := by
  induction Fs with
  | nil => exact h
  | cons F Fs ih =>
    refine ⟨?_, fun cls => (itemForm_fill cls F _).trans (itemForm_fill cls F _).symm⟩
    change ofSexp (F.fill (Term.fill Fs x)) = ofSexp (F.fill (Term.fill Fs y))
    rw [ofSexp_fill, ofSexp_fill, itemsOf_congr _ _ (ih.itemOf_eq F.cls)]

section UnexpectedChild

variable {cls child : TermClass} (h : cls.mayContain child = false)

include h

/-- A child in the wrong place is an error, whatever it consists of. -/
theorem itemOf_of_unexpectedChild (rest : List Sexp) :
    itemOf cls (.list (.atom child.name :: rest)) = .error (.unexpectedChild cls child) := by
  rw [itemOf_eq, itemForm_of_class, h]
  rfl

/-- Reading a list ends at a child in the wrong place, if not before. -/
theorem ofSexp_of_unexpectedChild (name : String) (before after rest : List Sexp) :
    ofSexp (Frame.fill ⟨cls, name, before, after⟩ (.list (.atom child.name :: rest))) =
      itemsOf cls before >>= fun _ => .error (.unexpectedChild cls child) := by
  rw [ofSexp_fill, itemsOf_of_error before after (itemOf_of_unexpectedChild h rest)]
  cases itemsOf cls before <;> rfl

theorem readAlike_of_unexpectedChild (name : String) (before after after' rest rest' : List Sexp) :
    ReadAlike (Frame.fill ⟨cls, name, before, after⟩ (.list (.atom child.name :: rest)))
      (Frame.fill ⟨cls, name, before, after'⟩ (.list (.atom child.name :: rest'))) := by
  refine ⟨?_, fun outer => ?_⟩
  · rw [ofSexp_of_unexpectedChild h, ofSexp_of_unexpectedChild h]
  · rw [itemForm_fill, itemForm_fill]

end UnexpectedChild

/-- **How deep reading goes.** Reading is made up of calls, and a call for an S-expression makes no
other calls than for those that `Calls` allows. Of these calls, five nested ones are enough for
every S-expression, and then the first four are for a program, a subroutine, a block and an
instruction, and the fifth is for an item that is rejected.

If a list has a child in the wrong place among its items, then the outcome does not depend on what
stands in the child behind its class, nor on the items after the child, also if the list is an item
of other lists. -/
theorem ofSexp_within_five :
    (∀ read x, (∀ y, Calls x y → read y = complete (ofSexp y)) →
        ofSexpWith read x = complete (ofSexp x)) ∧
      (∀ x, ofSexpWithin 5 x = complete (ofSexp x)) ∧
      (∀ a b c d e, Calls a b → Calls b c → Calls c d → Calls d e → IsLongestChain a b c d e) ∧
      ∀ cls child : TermClass, cls.mayContain child = false →
        ∀ (outer : List Frame) (name : String) (before after after' rest rest' : List Sexp),
          ofSexp (fill outer (Frame.fill ⟨cls, name, before, after⟩
              (.list (.atom child.name :: rest)))) =
            ofSexp (fill outer (Frame.fill ⟨cls, name, before, after'⟩
              (.list (.atom child.name :: rest')))) := by
  refine ⟨fun read x => ofSexpWith_eq, fun x => ?_, ?_, ?_⟩
  · exact ofSexpWithin_of_callBound_le (callBound_le_five x)
  · intro a b c d e hab hbc hcd hde
    exact isLongestChain_of_calls hab hbc hcd hde
  · intro cls child h outer name before after after' rest rest'
    have halike := readAlike_of_unexpectedChild h name before after after' rest rest'
    exact (halike.fill outer).ofSexp_eq

/-- An item of no class. -/
def unknownItem : Sexp := .list [.atom "foo"]

/-- A definition with an item of no class. -/
def faultyDefinition : Sexp := Frame.fill ⟨.definition, "d", [], []⟩ unknownItem

/-- A block with such a definition. -/
def faultyBlock : Sexp := Frame.fill ⟨.block, "b", [], []⟩ faultyDefinition

/-- A subroutine with such a block. -/
def faultySubroutine : Sexp := Frame.fill ⟨.subroutine, "f", [], []⟩ faultyBlock

/-- A program with such a subroutine. -/
def faultyProgram : Sexp := Frame.fill ⟨.program, "p", [], []⟩ faultySubroutine

/-- Five nested calls are needed for an item of no class in a program, and a block in a block is
rejected whatever it holds. -/
theorem ofSexp_within_five_faulty :
    ofSexpWith (fun y => complete (ofSexp y)) faultyProgram = complete (ofSexp faultyProgram) ∧
      ((ofSexpWithin 4 faultyProgram).run = none ∧
        ofSexpWithin 5 faultyProgram = complete (.error (.unknownClass "foo"))) ∧
      (Calls faultyProgram faultySubroutine ∧ Calls faultySubroutine faultyBlock ∧
        Calls faultyBlock faultyDefinition ∧ Calls faultyDefinition unknownItem ∧
        IsLongestChain faultyProgram faultySubroutine faultyBlock faultyDefinition unknownItem) ∧
      TermClass.block.mayContain .block = false ∧ ∀ after rest : List Sexp,
        ofSexp (fill [⟨.program, "p", [], []⟩, ⟨.subroutine, "f", [], []⟩]
          (Frame.fill ⟨.block, "b", [], after⟩ (.list (.atom "blk" :: rest)))) =
            .error (.unexpectedChild .block .block) := by
  obtain ⟨hcall, hfive, hchain, hchild⟩ := ofSexp_within_five
  have hprogram : Calls faultyProgram faultySubroutine := Frame.calls_fill (by cbv)
  have hsubroutine : Calls faultySubroutine faultyBlock := Frame.calls_fill (by cbv)
  have hblock : Calls faultyBlock faultyDefinition := Frame.calls_fill (by cbv)
  have hdefinition : Calls faultyDefinition unknownItem := Frame.calls_fill (by cbv)
  refine ⟨hcall _ _ fun y _ => rfl, ⟨by cbv, ?_⟩, ⟨hprogram, hsubroutine, hblock, hdefinition, ?_⟩,
    rfl, fun after rest => ?_⟩
  · rw [hfive]
    cbv
  · exact hchain _ _ _ _ _ hprogram hsubroutine hblock hdefinition
  · refine (hchild .block .block rfl _ "b" [] after [] rest []).trans ?_
    cbv

end TermRules.Term

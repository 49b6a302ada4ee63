import TermRules.Proofs.Term.Grammar

/-!
# Atoms that a term does not take

A term whose attributes and children can be read is rejected for an atom among its items if there
are more atoms than its class takes. The error tells one of them: the second atom, or else the only
one (`ofSexp_withItems_eq_unexpectedAtom_iff`).

This is the leftmost atom that the class does not take if the class takes an atom, or if there is
only one. Then the items in front of it are not rejected for an atom, and those up to it are. In a
class that takes no atom, the second atom is told although the first is already one too many:
`ofSexp_unexpectedAtom_iff` and `ofSexp_twoSurplus`.
-/

namespace TermRules.Term

/-- The list of a class, a name and items. -/
def withItems (cls : TermClass) (name : String) (xs : List Sexp) : Sexp :=
  .list (.atom cls.name :: .atom name :: xs)

/-- The atoms among some items. -/
def atomsOf (xs : List Sexp) : List String := xs.filterMap Sexp.atom?

/-- The number of atoms that a term of a class takes. -/
def atomRoom (cls : TermClass) : Nat := if takesAtom cls then 1 else 0

/-- An atom behind the items `before` is the leftmost one that the class does not take. -/
def IsFirstSurplus (cls : TermClass) (before : List Sexp) : Prop :=
  (atomsOf before).length = atomRoom cls

/-- An atom between the items `before` and `after` is the one that the error tells: the second atom,
or else the only one, where the class takes none. -/
inductive IsReported (cls : TermClass) (before after : List Sexp) : Prop
  | second (hbefore : (atomsOf before).length = 1)
  | sole (hbefore : atomsOf before = []) (hafter : atomsOf after = [])
    (htakes : takesAtom cls = false)

/-! ## Atoms among items -/

theorem atomsOf_append (xs ys : List Sexp) : atomsOf (xs ++ ys) = atomsOf xs ++ atomsOf ys :=
  List.filterMap_append

theorem atomsOf_atom_cons (text : String) (xs : List Sexp) :
    atomsOf (.atom text :: xs) = text :: atomsOf xs := rfl

/-- Behind an atom stand the atoms that stand behind it. -/
theorem exists_of_atomsOf_eq_cons {xs : List Sexp} {text : String} {rest : List String}
    (h : atomsOf xs = text :: rest) :
    ∃ before after, xs = before ++ .atom text :: after ∧ atomsOf before = [] ∧
      atomsOf after = rest := by
  obtain ⟨before, x, after, rfl, hbefore, hx, hafter⟩ := List.filterMap_eq_cons_iff.mp h
  cases x with
  | atom text' =>
    cases hx
    exact ⟨before, after, rfl, List.filterMap_eq_nil_iff.mpr hbefore, hafter⟩
  | list members => cases hx

/-! ## Which atom is told -/

section Errors

variable {cls : TermClass} {name : String} {xs : List Sexp}

theorem soleAtom?_eq_error_iff {atoms : List String} {e : ReadError} :
    soleAtom? cls atoms = .error e ↔ ∃ text, e = .unexpectedAtom cls text ∧
      ((∃ first rest, atoms = first :: text :: rest) ∨ atoms = [text] ∧ takesAtom cls = false) := by
  rcases atoms with _ | ⟨first, _ | ⟨second, rest⟩⟩
  · simp [soleAtom?]
  · by_cases htakes : takesAtom cls = true
    · simp [soleAtom?, htakes]
    · rw [soleAtom?, if_neg htakes]
      simp [eq_comm (b := e), htakes]
  · simp [soleAtom?, eq_comm (b := e)]

/-- An atom that denotes no payload is an error of its own kind. -/
theorem exists_intent_of_payloadOf_eq_error {text? : Option String} {e : ReadError}
    (h : payloadOf cls text? = .error e) : ∃ reason, e = .intent reason := by
  cases cls <;> cases text? <;> simp only [payloadOf, reduceCtorEq] at h
  case argument.some text =>
    split at h
    · cases h
    next reason _ =>
      cases h
      exact ⟨reason, rfl⟩

theorem assemble_eq_unexpectedAtom_iff {items : List Item}
    (hchildren : ∀ s ∈ items.filterMap Item.child?, cls.mayContain s.cls = true) {c : TermClass}
    {text : String} :
    assemble cls name items = .error (.unexpectedAtom c text) ↔
      soleAtom? cls (items.filterMap Item.atom?) = .error (.unexpectedAtom c text) := by
  rw [assemble, partsOf_of_forall hchildren, bind_eq_error]
  refine or_iff_left ?_
  rintro ⟨text?, -, h⟩
  obtain hparts | ⟨parts, -, h⟩ := bind_eq_error.mp h
  · cases hparts
  obtain hpayload | ⟨payload, -, h⟩ := bind_eq_error.mp h
  · obtain ⟨reason, hreason⟩ := exists_intent_of_payloadOf_eq_error hpayload
    cases hreason
  · cases h

/-- If all items can be read, then the term is rejected for an atom just if its atoms are. -/
theorem ofSexp_withItems_eq_unexpectedAtom_iff (name : String)
    (hreadable : ∀ x ∈ xs, ∃ item, itemOf cls x = .ok item) {c : TermClass} {text : String} :
    ofSexp (withItems cls name xs) = .error (.unexpectedAtom c text) ↔ c = cls ∧
      ((∃ first rest, atomsOf xs = first :: text :: rest) ∨
        atomsOf xs = [text] ∧ takesAtom cls = false) := by
  obtain ⟨items, hitems⟩ := exists_itemsOf_iff.mpr hreadable
  rw [withItems, ofSexp_of_items name hitems,
    assemble_eq_unexpectedAtom_iff (mayContain_of_itemsOf hitems),
    filterMap_atom?_of_itemsOf hitems, soleAtom?_eq_error_iff]
  constructor
  · rintro ⟨_, he, hatoms⟩
    cases he
    exact ⟨rfl, hatoms⟩
  · rintro ⟨rfl, hatoms⟩
    exact ⟨text, rfl, hatoms⟩

/-- If all items can be read, then the term is rejected for an atom just if there are more atoms
than its class takes. -/
theorem exists_unexpectedAtom_iff (name : String)
    (hreadable : ∀ x ∈ xs, ∃ item, itemOf cls x = .ok item) :
    (∃ c text, ofSexp (withItems cls name xs) = .error (.unexpectedAtom c text)) ↔
      atomRoom cls < (atomsOf xs).length := by
  simp only [ofSexp_withItems_eq_unexpectedAtom_iff name hreadable, atomRoom]
  rcases atomsOf xs with _ | ⟨first, _ | ⟨second, rest⟩⟩
  · simp
  · by_cases htakes : takesAtom cls = true <;> simp [htakes]
  · have hroom : (if takesAtom cls then 1 else 0) < rest.length + 1 + 1 := by
      split <;> omega
    exact iff_of_true ⟨cls, second, rfl, .inl ⟨first, rest, rfl⟩⟩ hroom

end Errors

/-! ## Where it stands -/

section Places

variable {cls : TermClass} {before after : List Sexp} {text : String}

theorem IsReported.atoms (h : IsReported cls before after) :
    (∃ first rest, atomsOf (before ++ .atom text :: after) = first :: text :: rest) ∨
      atomsOf (before ++ .atom text :: after) = [text] ∧ takesAtom cls = false := by
  rw [atomsOf_append, atomsOf_atom_cons]
  cases h with
  | second hbefore =>
    obtain ⟨first, hfirst⟩ := List.length_eq_one_iff.mp hbefore
    exact .inl ⟨first, atomsOf after, by rw [hfirst]; rfl⟩
  | sole hbefore hafter htakes => exact .inr ⟨by rw [hbefore, hafter]; rfl, htakes⟩

/-- The items up to the atom that the error tells have the same atom told. -/
theorem IsReported.take (h : IsReported cls before after) : IsReported cls before [] := by
  cases h with
  | second hbefore => exact .second hbefore
  | sole hbefore _ htakes => exact .sole hbefore rfl htakes

theorem exists_isReported_iff {xs : List Sexp} :
    ((∃ first rest, atomsOf xs = first :: text :: rest) ∨
        atomsOf xs = [text] ∧ takesAtom cls = false) ↔
      ∃ before after, xs = before ++ .atom text :: after ∧ IsReported cls before after := by
  constructor
  · rintro (⟨first, rest, h⟩ | ⟨h, htakes⟩)
    · obtain ⟨front, back, rfl, hfront, hback⟩ := exists_of_atomsOf_eq_cons h
      obtain ⟨middle, after, rfl, hmiddle, -⟩ := exists_of_atomsOf_eq_cons hback
      refine ⟨front ++ .atom first :: middle, after, by simp, .second ?_⟩
      rw [atomsOf_append, atomsOf_atom_cons, hfront, hmiddle]
      rfl
    · obtain ⟨before, after, rfl, hbefore, hafter⟩ := exists_of_atomsOf_eq_cons h
      exact ⟨before, after, rfl, .sole hbefore hafter htakes⟩
  · rintro ⟨before, after, rfl, h⟩
    exact h.atoms

/-- In front of the atom that the error tells there are no more atoms than the class takes just if
it is the leftmost that the class does not take. -/
theorem IsReported.length_le_iff (h : IsReported cls before after) :
    (atomsOf before).length ≤ atomRoom cls ↔ IsFirstSurplus cls before := by
  rw [IsFirstSurplus, atomRoom]
  cases h with
  | second hbefore =>
    rw [hbefore]
    split <;> omega
  | sole hbefore _ htakes => simp [hbefore, htakes]

theorem IsReported.isFirstSurplus_iff (h : IsReported cls before after) :
    IsFirstSurplus cls before ↔
      takesAtom cls = true ∨ atomsOf (before ++ .atom text :: after) = [text] := by
  rw [IsFirstSurplus, atomRoom, atomsOf_append, atomsOf_atom_cons]
  cases h with
  | second hbefore =>
    obtain ⟨first, hfirst⟩ := List.length_eq_one_iff.mp hbefore
    by_cases htakes : takesAtom cls = true <;> simp [hfirst, htakes]
  | sole hbefore hafter htakes => simp [hbefore, hafter, htakes]

end Places

/-- **Which surplus atom is told.** If the items of a term can be read, and the term is rejected for
an atom, then this atom stands among the items as `IsReported` says. Up to it, the items are
rejected for the same atom. In front of it they are not rejected for an atom just if it is the
leftmost one that the class does not take, which is the case if the class takes an atom or if there
is no other atom. -/
theorem ofSexp_unexpectedAtom_iff {cls : TermClass} (name : String) {xs : List Sexp}
    (hreadable : ∀ x ∈ xs, ∃ item, itemOf cls x = .ok item) :
    (∀ c text, ofSexp (withItems cls name xs) = .error (.unexpectedAtom c text) ↔
        c = cls ∧ ∃ before after, xs = before ++ .atom text :: after ∧
          IsReported cls before after) ∧
      ∀ before text after, xs = before ++ .atom text :: after → IsReported cls before after →
        ofSexp (withItems cls name (before ++ [.atom text])) =
            .error (.unexpectedAtom cls text) ∧
          ((∀ c text', ofSexp (withItems cls name before) ≠
              .error (.unexpectedAtom c text')) ↔ IsFirstSurplus cls before) ∧
          (IsFirstSurplus cls before ↔ takesAtom cls = true ∨ atomsOf xs = [text]) := by
  constructor
  · intro c text
    rw [ofSexp_withItems_eq_unexpectedAtom_iff name hreadable, exists_isReported_iff]
  · rintro before text after rfl h
    obtain ⟨hbefore, hatom, -⟩ := by
      simpa only [List.forall_mem_append, List.forall_mem_cons] using hreadable
    refine ⟨?_, ?_, h.isFirstSurplus_iff⟩
    · have hupTo : ∀ x ∈ before ++ [.atom text], ∃ item, itemOf cls x = .ok item := by
        simpa only [List.forall_mem_append, List.forall_mem_singleton] using ⟨hbefore, hatom⟩
      exact (ofSexp_withItems_eq_unexpectedAtom_iff name hupTo).mpr ⟨rfl, h.take.atoms⟩
    · have hrejected := exists_unexpectedAtom_iff name hbefore
      rw [← h.length_le_iff, ← Nat.not_lt, ← hrejected]
      simp only [not_exists, ne_eq]

/-- An argument with an intent and with two further atoms, of which the first is told. -/
theorem ofSexp_unexpectedAtom_argument :
    (∀ x ∈ [attrSexp "color" (some "red"), .atom "in", attrSexp "visited" none, .atom "x",
        .atom "y"], ∃ item, itemOf .argument x = .ok item) ∧
      ofSexp (withItems .argument "a" [attrSexp "color" (some "red"), .atom "in",
        attrSexp "visited" none, .atom "x", .atom "y"]) =
          .error (.unexpectedAtom .argument "x") ∧
      ∀ c text, ofSexp (withItems .argument "a" [attrSexp "color" (some "red"), .atom "in",
        attrSexp "visited" none]) ≠ .error (.unexpectedAtom c text) := by
  have hreadable : ∀ x ∈ [attrSexp "color" (some "red"), .atom "in", attrSexp "visited" none,
      .atom "x", .atom "y"], ∃ item, itemOf .argument x = .ok item := by
    simp only [List.forall_mem_cons, itemOf_attrSexp, itemOf_atom]
    simp
  obtain ⟨hreported, hcut⟩ := ofSexp_unexpectedAtom_iff "a" hreadable
  have hsecond : IsReported .argument [attrSexp "color" (some "red"), .atom "in",
      attrSexp "visited" none] [.atom "y"] := .second rfl
  obtain ⟨-, hbefore, -⟩ := hcut _ "x" _ rfl hsecond
  exact ⟨hreadable, (hreported _ _).mpr ⟨rfl, _, _, rfl, hsecond⟩, hbefore.mpr rfl⟩

/-- A subroutine takes no atom, yet of two atoms the second is told, and without it the subroutine
is rejected for the first. -/
theorem ofSexp_twoSurplus :
    ofSexp (withItems .subroutine "f" [.atom "x", .atom "y"]) =
        .error (.unexpectedAtom .subroutine "y") ∧
      ofSexp (withItems .subroutine "f" [.atom "x"]) =
        .error (.unexpectedAtom .subroutine "x") ∧
      atomRoom .subroutine = 0 := by
  refine ⟨by cbv, by cbv, rfl⟩

end TermRules.Term

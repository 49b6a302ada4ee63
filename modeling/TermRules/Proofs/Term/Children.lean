import TermRules.Proofs.Term.Canonical

/-!
# The children of a term that is read

The children among the items of a term are distributed one after the other, each to the list for its
class (`Parts.add`, `Parts.distribute`). There is an error for a child of a class that may not stand
in the term. But the class of a child is looked at before the child is read, so when all items are
read, there is no such child, and the error does not occur: `distribute_of_itemsOf`.

The argument goes one child at a time. A child that may stand in the term extends the parts that the
children before it make up (`Parts.add_ofTerms`), so a list of such children is distributed to the
end (`Parts.distribute_of_forall`). In each list then stand the children of its class
(`Parts.isDistributed_ofTerms`).
-/

namespace TermRules

namespace Parts

variable {cls : TermClass} {ts : List Term}

/-- The parts with one more child, at the end of the list for its class. It is an error if there is
no such list. -/
def add : (cls : TermClass) → Parts cls → Term → Except Term.ReadError (Parts cls)
  | .program, subroutines, ⟨.subroutine, n⟩ => .ok (subroutines ++ [n])
  | .subroutine, contents, ⟨.argument, n⟩ =>
    .ok { contents with arguments := contents.arguments ++ [n] }
  | .subroutine, contents, ⟨.block, n⟩ => .ok { contents with blocks := contents.blocks ++ [n] }
  | .block, instructions, ⟨.phi, n⟩ =>
    .ok { instructions with phis := instructions.phis ++ [n] }
  | .block, instructions, ⟨.definition, n⟩ =>
    .ok { instructions with definitions := instructions.definitions ++ [n] }
  | .block, instructions, ⟨.jump, n⟩ =>
    .ok { instructions with jumps := instructions.jumps ++ [n] }
  | cls, _, t => .error (.unexpectedChild cls t.cls)

/-- The parts that come of adding the children one after the other, up to the first error. -/
def distribute (cls : TermClass) (children : List Term) : Except Term.ReadError (Parts cls) :=
  children.foldlM (add cls) (ofTerms cls [])

/-- The list of the children of the class `child`. -/
def listOf : (cls : TermClass) → Parts cls → (child : TermClass) → List Term
  | .program, subroutines, .subroutine => subroutines.map (⟨.subroutine, ·⟩)
  | .subroutine, contents, .argument => contents.arguments.map (⟨.argument, ·⟩)
  | .subroutine, contents, .block => contents.blocks.map (⟨.block, ·⟩)
  | .block, instructions, .phi => instructions.phis.map (⟨.phi, ·⟩)
  | .block, instructions, .definition => instructions.definitions.map (⟨.definition, ·⟩)
  | .block, instructions, .jump => instructions.jumps.map (⟨.jump, ·⟩)
  | _, _, _ => []

/-- The children are distributed to the lists of the parts. -/
structure IsDistributed (cls : TermClass) (children : List Term) (p : Parts cls) : Prop where
  /-- In each list stand the children of its class, in their order. -/
  listOf_eq : ∀ child, listOf cls p child = children.filter fun t => t.cls = child
  /-- Every child is in exactly one of the lists that there are. -/
  existsUnique : ∀ t ∈ children, ∃! child, cls.mayContain child = true ∧ t ∈ listOf cls p child
  /-- The lists together hold every child as often as it is there. -/
  perm : (toTerms cls p).Perm children

/-! ## One child after the other -/

/-- A child that may stand in the term goes to the parts that the children before it make up. -/
theorem add_ofTerms {t : Term} (h : cls.mayContain t.cls = true) (ts : List Term) :
    add cls (ofTerms cls ts) t = .ok (ofTerms cls (ts ++ [t])) := by
  obtain ⟨child, n⟩ := t
  cases cls <;> cases child <;> cases h <;>
    simp [add, ofTerms, Term.as?_mk, Term.as?_mk_of_ne]

theorem add_of_mayContain_eq_false {t : Term} (h : cls.mayContain t.cls = false) (p : Parts cls) :
    add cls p t = .error (.unexpectedChild cls t.cls) := by
  obtain ⟨child, n⟩ := t
  cases cls <;> cases child <;> first | rfl | cases h

theorem distribute_append_singleton (cls : TermClass) (ts : List Term) (t : Term) :
    distribute cls (ts ++ [t]) = distribute cls ts >>= fun p => add cls p t := by
  rw [distribute, List.foldlM_append]
  simp only [List.foldlM_cons, List.foldlM_nil, bind_pure]
  rfl

/-- Children that may stand in the term are distributed without an error. -/
theorem distribute_of_forall (h : ∀ t ∈ ts, cls.mayContain t.cls = true) :
    distribute cls ts = .ok (ofTerms cls ts) := by
  induction ts using List.reverseRecOn with
  | nil => rfl
  | append_singleton ts t ih =>
    obtain ⟨hts, ht⟩ := List.forall_mem_append.mp h
    rw [distribute_append_singleton, ih hts]
    exact add_ofTerms (ht t List.mem_cons_self) ts

/-- The first child that may not stand in the term is told. -/
theorem partsOf_eq_distribute (cls : TermClass) (children : List Term) :
    Term.partsOf cls children = distribute cls children := by
  rw [Term.partsOf]
  cases hfind : children.find? fun t => !cls.mayContain t.cls with
  | none =>
    refine (distribute_of_forall fun t ht => ?_).symm
    simpa using List.find?_eq_none.mp hfind t ht
  | some t =>
    obtain ⟨ht, before, after, rfl, hbefore⟩ := List.find?_eq_some_iff_append.mp hfind
    have hbefore' : ∀ s ∈ before, cls.mayContain s.cls = true := by simpa using hbefore
    have hstop : add cls (ofTerms cls before) t = .error (.unexpectedChild cls t.cls) :=
      add_of_mayContain_eq_false (by simpa using ht) _
    have hdistribute := distribute_of_forall hbefore'
    rw [distribute] at hdistribute ⊢
    rw [List.foldlM_append, hdistribute]
    simp only [List.foldlM_cons, bind, Except.bind, hstop]

/-! ## The lists of the parts -/

/-- The children of each class are in the list for the class, in their order. -/
theorem listOf_ofTerms (h : ∀ t ∈ ts, cls.mayContain t.cls = true) (child : TermClass) :
    listOf cls (ofTerms cls ts) child = ts.filter fun t => t.cls = child := by
  by_cases hchild : cls.mayContain child = true
  · cases cls <;> cases child <;> cases hchild <;> exact Term.map_filterMap_as? _ ts
  · have hempty : listOf cls (ofTerms cls ts) child = [] := by
      cases cls <;> cases child <;> first | rfl | exact absurd rfl hchild
    rw [hempty, eq_comm, List.filter_eq_nil_iff]
    intro t ht hcls
    have hcontain := h t ht
    rw [of_decide_eq_true hcls] at hcontain
    exact hchild hcontain

theorem nodup_childClasses (cls : TermClass) : (Term.childClasses cls).Nodup := by
  cases cls <;> decide

/-- No child is left out of the lists. -/
theorem toTerms_ofTerms_perm (h : ∀ t ∈ ts, cls.mayContain t.cls = true) :
    (toTerms cls (ofTerms cls ts)).Perm ts := by
  have hcover : ∀ t ∈ ts, ∃ child ∈ Term.childClasses cls, some t.cls = some child := fun t ht =>
    ⟨t.cls, Term.mem_childClasses_iff.mpr (h t ht), rfl⟩
  have hperm := Term.flatMap_filter_perm (nodup_childClasses cls) hcover
  simp only [Option.some.injEq] at hperm
  rw [Term.toTerms_ofTerms]
  exact hperm

theorem isDistributed_ofTerms (h : ∀ t ∈ ts, cls.mayContain t.cls = true) :
    IsDistributed cls ts (ofTerms cls ts) where
  listOf_eq := listOf_ofTerms h
  existsUnique := by
    intro t ht
    simp only [listOf_ofTerms h, List.mem_filter, decide_eq_true_eq]
    refine ⟨t.cls, ⟨h t ht, ht, rfl⟩, ?_⟩
    rintro child ⟨-, -, hcls⟩
    exact hcls.symm
  perm := toTerms_ofTerms_perm h

end Parts

namespace Term

/-- What is left of assembling a term when its children are distributed. -/
theorem assemble_of_distribute {cls : TermClass} {items : List Item} {p : Parts cls}
    (h : Parts.distribute cls (items.filterMap Item.child?) = .ok p) (name : String) :
    assemble cls name items =
      (fun payload => ⟨cls, ⟨⟨name, .ofList (items.filterMap Item.attr?), payload⟩, p⟩⟩) <$>
        (soleAtom? cls (items.filterMap Item.atom?) >>= payloadOf cls) := by
  rw [assemble, Parts.partsOf_eq_distribute, h]
  cases soleAtom? cls (items.filterMap Item.atom?) with
  | error e => rfl
  | ok text? =>
    simp only [bind, Except.bind]
    cases payloadOf cls text? <;> rfl

/-- **The class of a child is checked once.** When the items of a term are read, all children among
them may stand in the term. So they are distributed one after the other without an error, each to
just one list. The term has these lists, unless its atoms are not what the class takes. -/
theorem distribute_of_itemsOf {cls : TermClass} {xs : List Sexp} {items : List Item}
    (h : itemsOf cls xs = .ok items) :
    (∀ t ∈ items.filterMap Item.child?, cls.mayContain t.cls = true) ∧
      ∃ p, Parts.distribute cls (items.filterMap Item.child?) = .ok p ∧
        Parts.IsDistributed cls (items.filterMap Item.child?) p ∧
        ∀ name, ofSexp (.list (.atom cls.name :: .atom name :: xs)) =
          (fun payload => ⟨cls, ⟨⟨name, .ofList (items.filterMap Item.attr?), payload⟩, p⟩⟩) <$>
            (soleAtom? cls (items.filterMap Item.atom?) >>= payloadOf cls) := by
  have hchildren := mayContain_of_itemsOf h
  have hdistribute := Parts.distribute_of_forall hchildren
  refine ⟨hchildren, _, hdistribute, Parts.isDistributed_ofTerms hchildren, fun name => ?_⟩
  rw [ofSexp_of_items name h, assemble_of_distribute hdistribute]

/-- The items of a block whose instructions stand in no order, with an attribute and with a jump
that is there twice. -/
def mixedItems : List Sexp :=
  [.list [.atom "jmp", .atom "j"], attrSexp "color" (some "red"), .list [.atom "def", .atom "d"],
    .list [.atom "phi", .atom "p"], .list [.atom "jmp", .atom "j"]]

theorem distribute_mixedItems :
    ∃ items p, itemsOf .block mixedItems = .ok items ∧
      Parts.distribute .block (items.filterMap Item.child?) = .ok p ∧
      Parts.IsDistributed .block (items.filterMap Item.child?) p ∧
      (Parts.listOf .block p .phi).map name = ["p"] ∧
      (Parts.listOf .block p .definition).map name = ["d"] ∧
      (Parts.listOf .block p .jump).map name = ["j", "j"] := by
  have hread : (fun items => (items.filterMap Item.child?).map fun t => (t.cls, t.name)) <$>
      itemsOf .block mixedItems =
        .ok [(.jump, "j"), (.definition, "d"), (.phi, "p"), (.jump, "j")] := by cbv
  obtain ⟨items, hitems, hchildren⟩ := map_eq_ok.mp hread
  obtain ⟨-, p, hdistribute, hdistributed, -⟩ := distribute_of_itemsOf hitems
  have hlist : ∀ child, (Parts.listOf .block p child).map name =
      (([(.jump, "j"), (.definition, "d"), (.phi, "p"), (.jump, "j")] :
        List (TermClass × String)).filter fun t => t.1 = child).map Prod.snd := by
    intro child
    rw [hdistributed.listOf_eq, ← hchildren, List.filter_map, List.map_map]
    rfl
  exact ⟨items, p, hitems, hdistribute, hdistributed, hlist .phi, hlist .definition, hlist .jump⟩

end Term

end TermRules

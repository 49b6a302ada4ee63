import Mathlib.Data.List.Forall2
import TermRules.Proofs.Outcome
import TermRules.Term.Reader

/-!
# Reading the items of a term

Each item of a term is read by itself (`Term.itemOf`), so that the items of a list that is put
together from several parts are those of the parts (`itemsOf_map_append`).

What reading can succeed on is said once for each step: of a single item (`itemOf_eq_ok_iff`), of
all items (`itemsOf_eq_ok_iff`), of the term that they make up (`assemble_eq_ok_iff`), and of the
whole S-expression (`ofSexp_eq_ok_iff`).
-/

namespace TermRules.Term

theorem itemsOf_map_append {α : Type} {cls : TermClass} {sexp : α → Sexp} {item : α → Item}
    {as : List α} (h : ∀ a ∈ as, itemOf cls (sexp a) = .ok (item a)) {xs : List Sexp}
    {items : List Item} (hxs : itemsOf cls xs = .ok items) :
    itemsOf cls (as.map sexp ++ xs) = .ok (as.map item ++ items) := by
  induction as with
  | nil => exact hxs
  | cons a as ih =>
    rw [List.map_cons, List.cons_append, itemsOf_cons, h a List.mem_cons_self,
      ih fun b hb => h b (List.mem_cons_of_mem _ hb)]
    rfl

theorem itemsOf_eq_ok_iff {cls : TermClass} {xs : List Sexp} {items : List Item} :
    itemsOf cls xs = .ok items ↔ List.Forall₂ (fun x item => itemOf cls x = .ok item) xs items := by
  induction xs generalizing items with
  | nil =>
    rw [itemsOf_nil, List.forall₂_nil_left_iff, Except.ok.injEq, eq_comm]
  | cons x xs ih =>
    rw [itemsOf_cons, List.forall₂_cons_left_iff]
    constructor
    · intro h
      obtain ⟨item, hitem, h⟩ := bind_eq_ok.mp h
      obtain ⟨rest, hrest, h⟩ := bind_eq_ok.mp h
      cases h
      exact ⟨item, rest, hitem, ih.mp hrest, rfl⟩
    · rintro ⟨item, rest, hitem, hrest, rfl⟩
      rw [hitem, ih.mpr hrest]
      rfl

/-! ## The term that items make up -/

/-- There is at most one atom, and only where the class takes one. -/
theorem soleAtom?_eq_ok_iff {cls : TermClass} {atoms : List String} {text? : Option String} :
    soleAtom? cls atoms = .ok text? ↔
      atoms = text?.toList ∧ (text?.isSome = true → takesAtom cls = true) := by
  rcases atoms with _ | ⟨text, _ | ⟨second, rest⟩⟩
  · cases text? <;> simp [soleAtom?]
  · by_cases htakes : takesAtom cls = true <;> cases text? <;> simp [soleAtom?, htakes, eq_comm]
  · cases text? <;> simp [soleAtom?]

theorem exists_intent_of_payloadOf {text : String} {payload : Payload .argument}
    (h : payloadOf .argument (some text) = .ok payload) :
    ∃ intent, Intent.read text = .ok intent ∧ payload = some intent := by
  simp only [payloadOf] at h
  split at h
  next intent hintent =>
    cases h
    exact ⟨intent, hintent, rfl⟩
  · cases h

/-- The term with the given name and payload and with the attributes and children among some
items. -/
def ofItems {cls : TermClass} (name : String) (payload : Payload cls) (items : List Item) : Term :=
  ⟨cls, ⟨⟨name, .ofList (items.filterMap Item.attr?), payload⟩,
    Parts.ofTerms cls (items.filterMap Item.child?)⟩⟩

/-- The children that an item list is read to are all of a class that may stand there. -/
theorem partsOf_of_forall {cls : TermClass} {children : List Term}
    (h : ∀ t ∈ children, cls.mayContain t.cls = true) :
    partsOf cls children = .ok (Parts.ofTerms cls children) := by
  have hnone : children.find? (fun t => !cls.mayContain t.cls) = none := by
    rw [List.find?_eq_none]
    intro t ht
    simp [h t ht]
  rw [partsOf, hnone]

theorem assemble_eq_ok_iff {cls : TermClass} {name : String} {items : List Item} {t : Term}
    (hchildren : ∀ s ∈ items.filterMap Item.child?, cls.mayContain s.cls = true) :
    assemble cls name items = .ok t ↔
      ∃ text? payload, soleAtom? cls (items.filterMap Item.atom?) = .ok text? ∧
        payloadOf cls text? = .ok payload ∧
        t = ofItems name payload items := by
  rw [assemble, partsOf_of_forall hchildren]
  constructor
  · intro h
    obtain ⟨text?, htext, h⟩ := bind_eq_ok.mp h
    obtain ⟨parts, hparts, h⟩ := bind_eq_ok.mp h
    obtain ⟨payload, hpayload, h⟩ := bind_eq_ok.mp h
    cases hparts
    cases h
    exact ⟨text?, payload, htext, hpayload, rfl⟩
  · rintro ⟨text?, payload, htext, hpayload, rfl⟩
    rw [htext]
    simp only [bind, Except.bind, hpayload]
    rfl

/-- A term is of the class that its items are assembled for. -/
theorem cls_of_assemble {cls : TermClass} {name : String} {items : List Item} {t : Term}
    (h : assemble cls name items = .ok t) : t.cls = cls := by
  obtain ⟨text?, -, h⟩ := bind_eq_ok.mp h
  obtain ⟨parts, -, h⟩ := bind_eq_ok.mp h
  obtain ⟨payload, -, h⟩ := bind_eq_ok.mp h
  cases h
  rfl

theorem ofName?_eq_some_iff {text : String} {c : TermClass} :
    TermClass.ofName? text = some c ↔ text = c.name := by
  constructor
  · intro h
    have hname : c.name = text := by simpa using List.find?_some h
    exact hname.symm
  · rintro rfl
    exact TermClass.ofName?_name c

theorem ofSexp_of_items {cls : TermClass} (name : String) {xs : List Sexp} {items : List Item}
    (h : itemsOf cls xs = .ok items) :
    ofSexp (.list (.atom cls.name :: .atom name :: xs)) = assemble cls name items := by
  rw [ofSexp_eq]
  simp only [TermClass.ofName?_name, h]
  rfl

/-- The class and the name of a term stand at the start of its list, and its items follow. -/
theorem ofSexp_eq_ok_iff {x : Sexp} {t : Term} :
    ofSexp x = .ok t ↔
      ∃ cls name xs items, x = .list (.atom (TermClass.name cls) :: .atom name :: xs) ∧
        itemsOf cls xs = .ok items ∧ assemble cls name items = .ok t := by
  constructor
  · intro h
    rw [ofSexp_eq] at h
    split at h
    next text rest =>
      split at h
      · cases h
      next cls hcls =>
        obtain rfl := ofName?_eq_some_iff.mp hcls
        split at h
        next name xs =>
          obtain ⟨items, hitems, h⟩ := bind_eq_ok.mp h
          exact ⟨cls, name, xs, items, rfl, hitems, h⟩
        · cases h
    · cases h
  · rintro ⟨cls, name, xs, items, rfl, hitems, h⟩
    rw [ofSexp_of_items name hitems]
    exact h

/-! ## The three kinds of items -/

theorem itemOf_atom (cls : TermClass) (text : String) :
    itemOf cls (.atom text) = .ok (.atom text) := rfl

theorem itemOf_attrSexp (cls : TermClass) (key : String) (value : Option String) :
    itemOf cls (attrSexp key value) = .ok (.attr key value) := by
  cases value <;> simp [itemOf_eq, itemForm, attrSexp, Sexp.headAtom?, Sexp.atom?] <;> rfl

theorem name_ne_attrMark (cls : TermClass) : cls.name ≠ attrMark := by
  cases cls <;> decide

theorem headAtom?_eq_some_iff {members : List Sexp} {text : String} :
    Sexp.headAtom? members = some text ↔ ∃ rest, members = .atom text :: rest := by
  cases members with
  | nil => simp [Sexp.headAtom?]
  | cons x xs => cases x <;> simp [Sexp.headAtom?, Sexp.atom?]

theorem itemOf_child {parent : TermClass} {x : Sexp} {t : Term}
    (h : parent.mayContain t.cls = true) (ht : ofSexp x = .ok t) :
    itemOf parent x = .ok (.child t) := by
  obtain ⟨cls, name, xs, items, rfl, -, hassemble⟩ := ofSexp_eq_ok_iff.mp ht
  obtain rfl := cls_of_assemble hassemble
  have hform : itemForm parent (.list (.atom t.cls.name :: .atom name :: xs)) = .ok .child := by
    simp [itemForm, Sexp.headAtom?, Sexp.atom?, name_ne_attrMark, TermClass.ofName?_name, h]
  rw [itemOf_eq, hform]
  simp only [bind, Except.bind, ht]
  rfl

theorem eq_atom_of_itemForm {cls : TermClass} {x : Sexp} {text : String}
    (h : itemForm cls x = .ok (.atom text)) : x = .atom text := by
  cases x with
  | atom text' =>
    cases h
    rfl
  | list members =>
    simp only [itemForm] at h
    split at h
    · split at h <;> cases h
    · split at h
      · split at h <;> cases h
      · cases h

theorem eq_attrSexp_of_itemForm {cls : TermClass} {x : Sexp} {key : String}
    {value : Option String} (h : itemForm cls x = .ok (.attr key value)) :
    x = attrSexp key value := by
  cases x with
  | atom text => cases h
  | list members =>
    simp only [itemForm] at h
    split at h
    next hmark =>
      obtain ⟨rest, rfl⟩ := headAtom?_eq_some_iff.mp hmark
      split at h
      next heq =>
        cases h
        cases heq
        rfl
      next heq =>
        cases h
        cases heq
        rfl
      · cases h
    next =>
      split at h
      · split at h <;> cases h
      · cases h

/-- A term that is taken for a child is of a class that may stand there. -/
theorem mayContain_of_itemForm {cls : TermClass} {x : Sexp} {t : Term}
    (h : itemForm cls x = .ok .child) (ht : ofSexp x = .ok t) : cls.mayContain t.cls = true := by
  obtain ⟨child, name, xs, items, rfl, -, hassemble⟩ := ofSexp_eq_ok_iff.mp ht
  obtain rfl := cls_of_assemble hassemble
  simp only [itemForm, Sexp.headAtom?, List.head?_cons, Option.bind_some, Sexp.atom?,
    Option.some.injEq, if_neg (name_ne_attrMark _), TermClass.ofName?_name] at h
  split at h
  next hcontain => exact hcontain
  · cases h

/-- An item is an atom, an attribute, or a term of a class that may stand there. -/
theorem itemOf_eq_ok_iff {cls : TermClass} {x : Sexp} {item : Item} :
    itemOf cls x = .ok item ↔
      (∃ text, x = .atom text ∧ item = .atom text) ∨
      (∃ key value, x = attrSexp key value ∧ item = .attr key value) ∨
      ∃ t, ofSexp x = .ok t ∧ cls.mayContain t.cls = true ∧ item = .child t := by
  constructor
  · intro h
    rw [itemOf_eq] at h
    obtain ⟨form, hform, h⟩ := bind_eq_ok.mp h
    cases form with
    | atom text =>
      cases h
      exact .inl ⟨text, eq_atom_of_itemForm hform, rfl⟩
    | attr key value =>
      cases h
      exact .inr (.inl ⟨key, value, eq_attrSexp_of_itemForm hform, rfl⟩)
    | child =>
      obtain ⟨t, ht, rfl⟩ := map_eq_ok.mp h
      exact .inr (.inr ⟨t, ht, mayContain_of_itemForm hform ht, rfl⟩)
  · rintro (⟨text, rfl, rfl⟩ | ⟨key, value, rfl, rfl⟩ | ⟨t, ht, hcontain, rfl⟩)
    · exact itemOf_atom cls text
    · exact itemOf_attrSexp cls key value
    · exact itemOf_child hcontain ht

/-! ## Terms and their items -/

/-- The atoms among some items are the atoms that are read. -/
theorem filterMap_atom?_of_itemsOf {cls : TermClass} {xs : List Sexp} {items : List Item}
    (h : itemsOf cls xs = .ok items) :
    items.filterMap Item.atom? = xs.filterMap Sexp.atom? := by
  rw [itemsOf_eq_ok_iff] at h
  induction h with
  | nil => rfl
  | @cons x item xs items hx _ ih =>
    have hatom : item.atom? = x.atom? := by
      rcases itemOf_eq_ok_iff.mp hx with ⟨text, rfl, rfl⟩ | ⟨key, value, rfl, rfl⟩ | ⟨t, ht, -, rfl⟩
      · rfl
      · rfl
      · obtain ⟨_, _, _, _, rfl, -⟩ := ofSexp_eq_ok_iff.mp ht
        rfl
    rw [List.filterMap_cons, List.filterMap_cons, hatom, ih]

/-- The children that are read are of classes that may stand there. -/
theorem mayContain_of_itemsOf {cls : TermClass} {xs : List Sexp} {items : List Item}
    (h : itemsOf cls xs = .ok items) :
    ∀ t ∈ items.filterMap Item.child?, cls.mayContain t.cls = true := by
  rw [itemsOf_eq_ok_iff] at h
  induction h with
  | nil => simp
  | @cons x item xs items hx _ ih =>
    intro t ht
    rw [List.filterMap_cons] at ht
    rcases itemOf_eq_ok_iff.mp hx with ⟨text, -, rfl⟩ | ⟨key, value, -, rfl⟩ | ⟨s, -, hs, rfl⟩
    · exact ih t ht
    · exact ih t ht
    · rcases List.mem_cons.mp ht with rfl | ht
      · exact hs
      · exact ih t ht

/-- A term consists of its class, its name and its items, of which at most one is an atom, which
denotes its payload. -/
theorem ofSexp_eq_ok_iff_ofItems {x : Sexp} {t : Term} :
    ofSexp x = .ok t ↔
      ∃ cls name xs items text? payload,
        x = .list (.atom (TermClass.name cls) :: .atom name :: xs) ∧
        itemsOf cls xs = .ok items ∧ soleAtom? cls (xs.filterMap Sexp.atom?) = .ok text? ∧
        payloadOf cls text? = .ok payload ∧ t = ofItems name payload items := by
  rw [ofSexp_eq_ok_iff]
  constructor
  · rintro ⟨cls, name, xs, items, rfl, hitems, h⟩
    obtain ⟨text?, payload, htext, hpayload, rfl⟩ :=
      (assemble_eq_ok_iff (mayContain_of_itemsOf hitems)).mp h
    rw [filterMap_atom?_of_itemsOf hitems] at htext
    exact ⟨cls, name, xs, items, text?, payload, rfl, hitems, htext, hpayload, rfl⟩
  · rintro ⟨cls, name, xs, items, text?, payload, rfl, hitems, htext, hpayload, rfl⟩
    rw [← filterMap_atom?_of_itemsOf hitems] at htext
    exact ⟨cls, name, xs, items, rfl, hitems,
      (assemble_eq_ok_iff (mayContain_of_itemsOf hitems)).mpr
        ⟨text?, payload, htext, hpayload, rfl⟩⟩

end TermRules.Term

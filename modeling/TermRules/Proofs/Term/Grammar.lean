import TermRules.Proofs.Term.Reading

/-!
# The grammar of terms

Which S-expressions are terms is said by a grammar on the written names (`IsTerm`, `IsItem`,
`AtomsFit`), without a word about how they are read. Reading succeeds on just these S-expressions:
`exists_ofSexp_iff`. It goes through single items, which are read just if the grammar allows them
(`exists_itemOf_iff`), and through the atoms among them, which denote a payload just if they fit
the class (`atomsFit_iff`).
-/

namespace TermRules.Term

/-! ## The grammar -/

/-- The names of the classes. -/
def classNames : List String := ["program", "sub", "arg", "blk", "phi", "def", "jmp"]

/-- The names of the classes whose terms may stand in a term of a class, in the order in which
these are written. -/
def childNames : String → List String
  | "program" => ["sub"]
  | "sub" => ["arg", "blk"]
  | "blk" => ["phi", "def", "jmp"]
  | _ => []

/-- The atoms that may stand among the items of a term of a class, as the code of an instruction or
as the intent of an argument. -/
inductive AtomsFit : String → List String → Prop
  | none {cls} : AtomsFit cls []
  | code {cls text} (hcls : cls ∈ ["phi", "def", "jmp"]) : AtomsFit cls [text]
  | intent {text} (htext : text ∈ ["in", "out", "both"]) : AtomsFit "arg" [text]

mutual

/-- The S-expression is a term of the class with the given name: a list of a class, a name and
items. -/
inductive IsTerm : String → Sexp → Prop
  | intro {cls name items} (hcls : cls ∈ classNames) (hitems : ∀ x ∈ items, IsItem cls x)
    (hatoms : AtomsFit cls (items.filterMap Sexp.atom?)) :
    IsTerm cls (.list (.atom cls :: .atom name :: items))

/-- The S-expression may be an item of a term of a class: an atom, an attribute or a term. -/
inductive IsItem : String → Sexp → Prop
  | atom {cls text} : IsItem cls (.atom text)
  | key {cls key} : IsItem cls (.list [.atom "@", .atom key])
  | keyValue {cls key value} : IsItem cls (.list [.atom "@", .atom key, .atom value])
  | child {cls child x} (hchild : child ∈ childNames cls) (h : IsTerm child x) : IsItem cls x

end

/-! ## Names -/

theorem mem_classNames_iff {text : String} :
    text ∈ classNames ↔ ∃ cls : TermClass, cls.name = text := by
  constructor
  · intro h
    simp only [classNames, List.mem_cons, List.not_mem_nil, or_false] at h
    rcases h with rfl | rfl | rfl | rfl | rfl | rfl | rfl
    exacts [⟨.program, rfl⟩, ⟨.subroutine, rfl⟩, ⟨.argument, rfl⟩, ⟨.block, rfl⟩, ⟨.phi, rfl⟩,
      ⟨.definition, rfl⟩, ⟨.jump, rfl⟩]
  · rintro ⟨cls, rfl⟩
    cases cls <;> decide

/-- The classes whose terms may stand in a term of a class, in the order in which these are
written. -/
def childClasses : TermClass → List TermClass
  | .program => [.subroutine]
  | .subroutine => [.argument, .block]
  | .block => [.phi, .definition, .jump]
  | .argument | .phi | .definition | .jump => []

theorem childNames_name (cls : TermClass) :
    childNames cls.name = (childClasses cls).map TermClass.name := by
  cases cls <;> rfl

theorem mem_childClasses_iff {cls child : TermClass} :
    child ∈ childClasses cls ↔ cls.mayContain child = true := by
  cases cls <;> cases child <;> decide

theorem mem_childNames_iff {cls : TermClass} {text : String} :
    text ∈ childNames cls.name ↔ ∃ child, cls.mayContain child = true ∧ child.name = text := by
  simp [childNames_name, mem_childClasses_iff]

theorem name_of_read {text : String} {intent : Intent} (h : Intent.read text = .ok intent) :
    intent.name = text := by
  unfold Intent.read at h
  split at h
  next hname =>
    cases h
    simpa using List.find?_some hname
  · cases h

theorem mem_intents_iff {text : String} :
    text ∈ ["in", "out", "both"] ↔ ∃ intent, Intent.read text = .ok intent := by
  constructor
  · intro h
    simp only [List.mem_cons, List.not_mem_nil, or_false] at h
    rcases h with rfl | rfl | rfl
    exacts [⟨.input, rfl⟩, ⟨.output, rfl⟩, ⟨.both, rfl⟩]
  · rintro ⟨intent, h⟩
    rw [← name_of_read h]
    cases intent <;> decide

/-! ## Atoms -/

theorem atomsFit_iff {cls : TermClass} {atoms : List String} :
    AtomsFit cls.name atoms ↔
      ∃ text? payload, soleAtom? cls atoms = .ok text? ∧ payloadOf cls text? = .ok payload := by
  constructor
  · intro h
    generalize hname : cls.name = name at h
    cases h with
    | none =>
      refine ⟨none, ?_⟩
      cases cls <;> exact ⟨_, rfl, rfl⟩
    | @code _ text hcls =>
      refine ⟨some text, ?_⟩
      subst hname
      cases cls <;> simp [TermClass.name] at hcls <;> exact ⟨_, rfl, rfl⟩
    | @intent text htext =>
      obtain ⟨intent, hintent⟩ := mem_intents_iff.mp htext
      refine ⟨some text, ?_⟩
      cases cls <;> simp [TermClass.name] at hname
      exact ⟨some intent, rfl, by simp [payloadOf, hintent]⟩
  · rintro ⟨text?, payload, htext, hpayload⟩
    obtain ⟨rfl, htakes⟩ := soleAtom?_eq_ok_iff.mp htext
    cases text? with
    | none => exact .none
    | some text =>
      have htakes := htakes rfl
      cases cls <;> simp [takesAtom, TermClass.isInstruction] at htakes
      case argument =>
        obtain ⟨intent, hintent, -⟩ := exists_intent_of_payloadOf hpayload
        exact .intent (mem_intents_iff.mpr ⟨intent, hintent⟩)
      all_goals exact .code (by decide)

/-! ## Items -/

theorem exists_itemsOf_iff {cls : TermClass} {xs : List Sexp} :
    (∃ items, itemsOf cls xs = .ok items) ↔ ∀ x ∈ xs, ∃ item, itemOf cls x = .ok item := by
  simp only [itemsOf_eq_ok_iff]
  induction xs with
  | nil => simp
  | cons x xs ih =>
    rw [List.forall_mem_cons, ← ih]
    constructor
    · rintro ⟨items, h⟩
      cases h with
      | cons hx hxs => exact ⟨⟨_, hx⟩, _, hxs⟩
    · rintro ⟨⟨item, hx⟩, items, hxs⟩
      exact ⟨_, .cons hx hxs⟩

/-- Items are read just if the grammar allows them, given this of the terms among them. -/
theorem exists_itemOf_iff {cls : TermClass} {x : Sexp}
    (hx : ∀ child : TermClass, (∃ t, ofSexp x = .ok t ∧ t.cls = child) ↔ IsTerm child.name x) :
    (∃ item, itemOf cls x = .ok item) ↔ IsItem cls.name x := by
  constructor
  · rintro ⟨item, h⟩
    rcases itemOf_eq_ok_iff.mp h with ⟨text, rfl, -⟩ | ⟨key, value, rfl, -⟩ | ⟨t, ht, hcontain, -⟩
    · exact .atom
    · cases value with
      | none => exact .key
      | some value => exact .keyValue
    · have hchild : t.cls.name ∈ childNames cls.name :=
        mem_childNames_iff.mpr ⟨t.cls, hcontain, rfl⟩
      exact .child hchild ((hx t.cls).mp ⟨t, ht, rfl⟩)
  · intro h
    cases h with
    | atom => exact ⟨_, itemOf_atom cls _⟩
    | @key _ key => exact ⟨_, itemOf_attrSexp cls key none⟩
    | @keyValue _ key value => exact ⟨_, itemOf_attrSexp cls key (some value)⟩
    | child hchild hterm =>
      obtain ⟨child, hcontain, rfl⟩ := mem_childNames_iff.mp hchild
      obtain ⟨t, ht, rfl⟩ := (hx child).mpr hterm
      exact ⟨_, itemOf_child hcontain ht⟩

/-! ## Terms -/

theorem exists_ofSexp_cls_iff (x : Sexp) (cls : TermClass) :
    (∃ t, ofSexp x = .ok t ∧ t.cls = cls) ↔ IsTerm cls.name x := by
  induction x using Sexp.induction generalizing cls with
  | atom text =>
    constructor
    · rintro ⟨t, ht, -⟩
      obtain ⟨_, _, _, _, ⟨⟩, -⟩ := ofSexp_eq_ok_iff.mp ht
    · intro h
      cases h
  | list members ih =>
    have hitems : ∀ {cls : TermClass} {first second : Sexp} {xs : List Sexp},
        members = first :: second :: xs →
        ((∃ items, itemsOf cls xs = .ok items) ↔ ∀ x ∈ xs, IsItem cls.name x) := by
      rintro cls first second xs rfl
      rw [exists_itemsOf_iff]
      refine forall₂_congr fun x hx => exists_itemOf_iff (ih x ?_)
      exact List.mem_cons_of_mem first (List.mem_cons_of_mem second hx)
    constructor
    · rintro ⟨t, ht, rfl⟩
      obtain ⟨cls, name, xs, items, text?, payload, hmembers, hread, htext, hpayload, rfl⟩ :=
        ofSexp_eq_ok_iff_ofItems.mp ht
      cases hmembers
      exact .intro (mem_classNames_iff.mpr ⟨cls, rfl⟩) ((hitems rfl).mp ⟨items, hread⟩)
        (atomsFit_iff.mpr ⟨text?, payload, htext, hpayload⟩)
    · intro h
      generalize hname : cls.name = text at h
      cases h with
      | @intro _ name xs _ hxs hatoms =>
        subst hname
        obtain ⟨items, hread⟩ := (hitems rfl).mpr hxs
        obtain ⟨text?, payload, htext, hpayload⟩ := atomsFit_iff.mp hatoms
        exact ⟨ofItems name payload items, ofSexp_eq_ok_iff_ofItems.mpr
          ⟨cls, name, xs, items, text?, payload, rfl, hread, htext, hpayload, rfl⟩, rfl⟩

/-- **Reading accepts the grammar.** An S-expression is read as a term if and only if it is one by
the grammar. -/
theorem exists_ofSexp_iff (x : Sexp) : (∃ t, ofSexp x = .ok t) ↔ ∃ cls, IsTerm cls x := by
  constructor
  · rintro ⟨t, ht⟩
    exact ⟨t.cls.name, (exists_ofSexp_cls_iff x t.cls).mp ⟨t, ht, rfl⟩⟩
  · rintro ⟨text, h⟩
    have hcls : text ∈ classNames := by
      cases h with
      | intro hcls => exact hcls
    obtain ⟨cls, rfl⟩ := mem_classNames_iff.mp hcls
    obtain ⟨t, ht, -⟩ := (exists_ofSexp_cls_iff x cls).mpr h
    exact ⟨t, ht⟩

end TermRules.Term

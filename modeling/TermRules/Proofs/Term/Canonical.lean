import Mathlib
import TermRules.Proofs.SortedMap
import TermRules.Proofs.Text.ByteOrder
import TermRules.Proofs.Term.Grammar

/-!
# Canonical forms

The S-expression of a term that was read is the one that was read, put in canonical order
(`IsCanonical`): behind the class and the name stand the atom, if there is one, the attributes in
the order of their keys, each key with its last value, and the canonical forms of the terms among
the items, grouped by class. There is just one canonical form, and it is what is printed:
`isCanonical_iff`.
-/

namespace TermRules.Term

/-! ## Canonical order -/

/-- The atom at the start of a list. -/
def headName? : Sexp → Option String
  | .atom _ => none
  | .list members => Sexp.headAtom? members

/-- Whether an item is a term, that is, neither an atom nor an attribute. -/
def isTermItem : Sexp → Bool
  | .atom _ => false
  | .list members => Sexp.headAtom? members != some "@"

/-- The terms among the items of a term of a class, those of each class in the order in which they
stand among the items. -/
def grouped (cls : String) (items : List Sexp) : List Sexp :=
  (childNames cls).flatMap fun child => items.filter fun x => headName? x = some child

/-- The last attribute with the key `key` among some items gives it the value `value`. -/
def IsLastAttr (items : List Sexp) (key : String) (value : Option String) : Prop :=
  ∃ before after, items = before ++ attrSexp key value :: after ∧
    ∀ value', attrSexp key value' ∉ after

/-- The second S-expression is the first one in canonical order. -/
inductive IsCanonical : Sexp → Sexp → Prop
  | intro {cls name : String} {items children : List Sexp}
    {attrs : List (String × Option String)}
    (hsorted : attrs.Pairwise fun a b => Text.bytes a.1 < Text.bytes b.1)
    (hattrs : ∀ key value, (key, value) ∈ attrs ↔ IsLastAttr items key value)
    (hgrouped : (grouped cls items).Perm (items.filter isTermItem))
    (hchildren : List.Forall₂ IsCanonical (grouped cls items) children) :
    IsCanonical (.list (.atom cls :: .atom name :: items))
      (.list (.atom cls :: .atom name ::
        (items.filter (fun x => x.atom?.isSome) ++
          (attrs.map (fun attr => attrSexp attr.1 attr.2) ++ children))))

/-! ## Attributes -/

/-- The key and the value of an attribute. -/
def attrOf? : Sexp → Option (String × Option String)
  | .list [.atom mark, .atom key] => if mark = attrMark then some (key, none) else none
  | .list [.atom mark, .atom key, .atom value] =>
    if mark = attrMark then some (key, some value) else none
  | _ => none

theorem attrOf?_attrSexp (key : String) (value : Option String) :
    attrOf? (attrSexp key value) = some (key, value) := by
  cases value <;> simp [attrSexp, attrOf?]

theorem attrOf?_eq_some_iff {x : Sexp} {key : String} {value : Option String} :
    attrOf? x = some (key, value) ↔ x = attrSexp key value := by
  constructor
  · intro h
    unfold attrOf? at h
    split at h
    · split at h
      next hmark => cases h; rw [hmark]; rfl
      · cases h
    · split at h
      next hmark => cases h; rw [hmark]; rfl
      · cases h
    · cases h
  · rintro rfl
    exact attrOf?_attrSexp key value

theorem attrOf?_of_ofSexp {x : Sexp} {t : Term} (h : ofSexp x = .ok t) : attrOf? x = none := by
  rw [Option.eq_none_iff_forall_ne_some]
  rintro ⟨key, value⟩ hattr
  obtain ⟨cls, name, xs, items, hx, -⟩ := ofSexp_eq_ok_iff.mp h
  rw [attrOf?_eq_some_iff.mp hattr, attrSexp, Sexp.list.injEq, List.cons.injEq,
    Sexp.atom.injEq] at hx
  exact name_ne_attrMark cls hx.1.symm

theorem filterMap_attr?_of_itemsOf {cls : TermClass} {xs : List Sexp} {items : List Item}
    (h : itemsOf cls xs = .ok items) :
    items.filterMap Item.attr? = xs.filterMap attrOf? := by
  rw [itemsOf_eq_ok_iff] at h
  induction h with
  | nil => rfl
  | @cons x item xs items hx _ ih =>
    have hattr : item.attr? = attrOf? x := by
      rcases itemOf_eq_ok_iff.mp hx with ⟨text, rfl, rfl⟩ | ⟨key, value, rfl, rfl⟩ | ⟨t, ht, -, rfl⟩
      · rfl
      · exact (attrOf?_attrSexp key value).symm
      · exact (attrOf?_of_ofSexp ht).symm
    rw [List.filterMap_cons, List.filterMap_cons, hattr, ih]

theorem isLastEntry_iff {xs : List Sexp} {key : String} {value : Option String} :
    IsLastEntry (xs.filterMap attrOf?) key value ↔ IsLastAttr xs key value := by
  constructor
  · rintro ⟨before, after, heq, hafter⟩
    obtain ⟨front, back, rfl, rfl, hback⟩ := List.filterMap_eq_append_iff.mp heq
    obtain ⟨skipped, x, rest, rfl, hskipped, hx, rfl⟩ := List.filterMap_eq_cons_iff.mp hback
    rw [attrOf?_eq_some_iff.mp hx]
    refine ⟨front ++ skipped, rest, by simp, fun value' hmem => ?_⟩
    exact hafter (key, value') (List.mem_filterMap.mpr ⟨_, hmem, attrOf?_attrSexp ..⟩) rfl
  · rintro ⟨before, after, rfl, hafter⟩
    refine ⟨before.filterMap attrOf?, after.filterMap attrOf?, ?_, ?_⟩
    · rw [List.filterMap_append, List.filterMap_cons, attrOf?_attrSexp]
    · rintro ⟨key', value'⟩ he rfl
      obtain ⟨x, hx, hattr⟩ := List.mem_filterMap.mp he
      rw [attrOf?_eq_some_iff.mp hattr] at hx
      exact hafter value' hx

/-! ## Atoms -/

theorem filter_isSome_atom? (xs : List Sexp) :
    xs.filter (fun x => x.atom?.isSome) = (xs.filterMap Sexp.atom?).map .atom := by
  induction xs with
  | nil => rfl
  | cons x xs ih =>
    cases x with
    | atom text => exact congrArg (.atom text :: ·) ih
    | list members => exact ih

/-- A payload is written as the atom that denotes it. -/
theorem text?_of_payloadOf {cls : TermClass} {atoms : List String} {text? : Option String}
    {payload : Payload cls} (htext : soleAtom? cls atoms = .ok text?)
    (hpayload : payloadOf cls text? = .ok payload) :
    (Payload.text? cls payload).toList = atoms := by
  obtain ⟨rfl, htakes⟩ := soleAtom?_eq_ok_iff.mp htext
  cases text? with
  | none => cases cls <;> cases hpayload <;> rfl
  | some text =>
    have htakes := htakes rfl
    cases cls <;> simp [takesAtom, TermClass.isInstruction] at htakes
    case argument =>
      obtain ⟨intent, hintent, rfl⟩ := exists_intent_of_payloadOf hpayload
      exact congrArg (fun name => [name]) (name_of_read hintent)
    all_goals cases hpayload; rfl

/-! ## Children -/

theorem headName?_of_ofSexp {x : Sexp} {t : Term} (h : ofSexp x = .ok t) :
    headName? x = some t.cls.name := by
  obtain ⟨cls, name, xs, items, rfl, -, hassemble⟩ := ofSexp_eq_ok_iff.mp h
  rw [cls_of_assemble hassemble]
  rfl

theorem name_inj {c d : TermClass} : c.name = d.name ↔ c = d := by
  refine ⟨fun h => ?_, congrArg _⟩
  rw [← Option.some_inj, ← TermClass.ofName?_name c, h, TermClass.ofName?_name]

/-- The terms of a class, as nodes and again as terms. -/
theorem map_filterMap_as? (c : TermClass) (ts : List Term) :
    (ts.filterMap (as? c)).map (Term.mk c) = ts.filter fun t => t.cls = c := by
  induction ts with
  | nil => rfl
  | cons t ts ih =>
    obtain ⟨d, n⟩ := t
    by_cases hd : d = c
    · subst hd
      simp [ih]
    · simp [as?_mk_of_ne hd, hd, ih]

/-- The children of a term, grouped by class. -/
theorem toTerms_ofTerms (cls : TermClass) (ts : List Term) :
    Parts.toTerms cls (Parts.ofTerms cls ts) =
      (childClasses cls).flatMap fun c => ts.filter fun t => t.cls = c := by
  simp only [← map_filterMap_as?]
  cases cls <;> simp [Parts.toTerms, Parts.ofTerms, childClasses]

/-- The terms of one class among some items are read, one after the other, to the children of this
class. -/
theorem forall₂_filter_of_itemsOf {cls c : TermClass} {xs : List Sexp} {items : List Item}
    (h : itemsOf cls xs = .ok items) :
    List.Forall₂ (fun x t => ofSexp x = .ok t) (xs.filter fun x => headName? x = some c.name)
      ((items.filterMap Item.child?).filter fun t => t.cls = c) := by
  rw [itemsOf_eq_ok_iff] at h
  induction h with
  | nil => exact .nil
  | @cons x item xs items hx _ ih =>
    rcases itemOf_eq_ok_iff.mp hx with ⟨text, rfl, rfl⟩ | ⟨key, value, rfl, rfl⟩ | ⟨t, ht, -, rfl⟩
    · exact ih
    · have hne : headName? (attrSexp key value) ≠ some c.name := fun h =>
        name_ne_attrMark c (Option.some.inj h).symm
      rw [List.filter_cons_of_neg (by simpa using hne)]
      exact ih
    · have hname : headName? x = some c.name ↔ t.cls = c := by
        rw [headName?_of_ofSexp ht, Option.some_inj, name_inj]
      rw [List.filterMap_cons_some (show Item.child? (.child t) = some t from rfl)]
      by_cases hc : t.cls = c
      · rw [List.filter_cons_of_pos (by simpa using hname.mpr hc),
          List.filter_cons_of_pos (by simpa using hc)]
        exact .cons ht ih
      · rw [List.filter_cons_of_neg (by simpa [hname] using hc),
          List.filter_cons_of_neg (by simpa using hc)]
        exact ih

/-- The terms among some items, grouped by class, are read to the children. -/
theorem forall₂_grouped {cls : TermClass} {name : String} {payload : Payload cls} {xs : List Sexp}
    {items : List Item} (h : itemsOf cls xs = .ok items) :
    List.Forall₂ (fun x t => ofSexp x = .ok t) (grouped cls.name xs)
      (ofItems name payload items).children := by
  have hchildren : (ofItems name payload items).children =
      (childClasses cls).flatMap fun c =>
        (items.filterMap Item.child?).filter fun t => t.cls = c :=
    toTerms_ofTerms cls _
  rw [hchildren, grouped, childNames_name, List.flatMap_map]
  refine List.rel_flatMap (List.forall₂_same.mpr fun c _ => (rfl : c = c)) ?_
  rintro c _ rfl
  exact forall₂_filter_of_itemsOf h

/-- Grouping by distinct keys moves elements about but neither drops nor repeats one. -/
theorem flatMap_filter_perm {α β : Type} [DecidableEq β] {key? : α → Option β} {keys : List β}
    (hkeys : keys.Nodup) {l : List α} (hl : ∀ a ∈ l, ∃ k ∈ keys, key? a = some k) :
    (keys.flatMap fun k => l.filter fun a => key? a = some k).Perm l := by
  induction keys generalizing l with
  | nil =>
    have hnil : l = [] := List.eq_nil_iff_forall_not_mem.mpr fun a ha => by
      obtain ⟨k, hk, -⟩ := hl a ha
      cases hk
    rw [hnil]
    exact .nil
  | cons k keys ih =>
    obtain ⟨hk, hkeys⟩ := List.nodup_cons.mp hkeys
    -- The groups of the other keys are found among the elements that do not have the key `k`.
    have hrest : ∀ k' ∈ keys, (l.filter fun a => key? a = some k') =
        (l.filter fun a => !decide (key? a = some k)).filter fun a => key? a = some k' := by
      intro k' hk'
      rw [List.filter_filter]
      refine List.filter_congr fun a _ => ?_
      have hne : k' ≠ k := fun h => hk (h ▸ hk')
      by_cases ha : key? a = some k' <;> simp [ha, hne]
    have hcover : ∀ a ∈ l.filter (fun a => !decide (key? a = some k)),
        ∃ k' ∈ keys, key? a = some k' := by
      intro a ha
      obtain ⟨hmem, hne⟩ := List.mem_filter.mp ha
      obtain ⟨k', hk', hkey⟩ := hl a hmem
      rcases List.mem_cons.mp hk' with rfl | hk'
      · simp [hkey] at hne
      · exact ⟨k', hk', hkey⟩
    rw [List.flatMap_cons, List.flatMap_congr hrest]
    exact ((ih hkeys hcover).append_left _).trans (List.filter_append_perm _ l)

theorem isTermItem_of_headName? {x : Sexp} {text : String} (h : headName? x = some text)
    (hne : text ≠ "@") : isTermItem x = true := by
  cases x with
  | atom _ => cases h
  | list members =>
    have hhead : Sexp.headAtom? members = some text := h
    simp [isTermItem, hhead, hne]

theorem nodup_childNames (cls : TermClass) : (childNames cls.name).Nodup := by
  cases cls <;> decide

/-- No term among the items is left out. -/
theorem grouped_perm {cls : TermClass} {xs : List Sexp} {items : List Item}
    (h : itemsOf cls xs = .ok items) : (grouped cls.name xs).Perm (xs.filter isTermItem) := by
  have hcover : ∀ x ∈ xs.filter isTermItem, ∃ text ∈ childNames cls.name,
      headName? x = some text := by
    intro x hx
    obtain ⟨hmem, hterm⟩ := List.mem_filter.mp hx
    obtain ⟨item, hitem⟩ := exists_itemsOf_iff.mp ⟨items, h⟩ x hmem
    rcases itemOf_eq_ok_iff.mp hitem with ⟨text, rfl, -⟩ | ⟨key, value, rfl, -⟩ | ⟨t, ht, hcls, -⟩
    · cases hterm
    · cases hterm
    · exact ⟨t.cls.name, mem_childNames_iff.mpr ⟨t.cls, hcls, rfl⟩, headName?_of_ofSexp ht⟩
  have hterms : ∀ text ∈ childNames cls.name, (xs.filter fun x => headName? x = some text) =
      (xs.filter isTermItem).filter fun x => headName? x = some text := by
    intro text htext
    obtain ⟨child, -, rfl⟩ := mem_childNames_iff.mp htext
    rw [List.filter_filter]
    refine List.filter_congr fun x _ => ?_
    by_cases hx : headName? x = some child.name
    · simp [hx, isTermItem_of_headName? hx (name_ne_attrMark child)]
    · simp [hx]
  rw [grouped, List.flatMap_congr hterms]
  exact flatMap_filter_perm (nodup_childNames cls) hcover

/-! ## Canonical forms -/

theorem mem_of_mem_grouped {cls : String} {items : List Sexp} {x : Sexp}
    (h : x ∈ grouped cls items) : x ∈ items := by
  obtain ⟨child, -, hx⟩ := List.mem_flatMap.mp h
  exact List.mem_of_mem_filter hx

theorem toSexp_ofItems {cls : TermClass} (name : String) (payload : Payload cls)
    (items : List Item) :
    (ofItems name payload items).toSexp = .list (.atom cls.name :: .atom name ::
      ((Payload.text? cls payload).toList.map .atom ++
        ((SortedMap.ofList (items.filterMap Item.attr?)).toList.map
          (fun attr => attrSexp attr.1 attr.2) ++
          (ofItems name payload items).children.map toSexp))) := by
  rw [toSexp_eq, Head.sexps, List.cons_append, List.cons_append, List.append_assoc,
    Option.toList_map]
  rfl

theorem isCanonical_toSexp {x : Sexp} {t : Term} (h : ofSexp x = .ok t) :
    IsCanonical x t.toSexp := by
  induction x using Sexp.induction generalizing t with
  | atom text =>
    obtain ⟨_, _, _, _, ⟨⟩, -⟩ := ofSexp_eq_ok_iff.mp h
  | list members ih =>
    obtain ⟨cls, name, xs, items, text?, payload, hmembers, hread, htext, hpayload, rfl⟩ :=
      ofSexp_eq_ok_iff_ofItems.mp h
    cases hmembers
    have hattrs : ∀ key value,
        (key, value) ∈ (SortedMap.ofList (items.filterMap Item.attr?)).toList ↔
          IsLastAttr xs key value := by
      intro key value
      rw [filterMap_attr?_of_itemsOf hread, SortedMap.mem_toList_ofList_iff, isLastEntry_iff]
    have hchildren : List.Forall₂ IsCanonical (grouped cls.name xs)
        ((ofItems name payload items).children.map toSexp) := by
      have hmembers : ∀ x ∈ grouped cls.name xs, ∀ {s}, ofSexp x = .ok s →
          IsCanonical x s.toSexp := fun x hx =>
        ih x (List.mem_cons_of_mem _ (List.mem_cons_of_mem _ (mem_of_mem_grouped hx)))
      rw [List.forall₂_map_right_iff]
      exact ((List.forall₂_and_left _ _).mpr ⟨hmembers, forall₂_grouped hread⟩).imp
        fun _ _ h => h.1 h.2
    rw [toSexp_ofItems, text?_of_payloadOf htext hpayload, ← filter_isSome_atom?]
    exact .intro (SortedMap.pairwise_bytes_toList _) hattrs (grouped_perm hread) hchildren

/-- Attributes in ascending order of their keys are determined by which ones they are. -/
theorem eq_of_pairwise_bytes {α : Type} {as bs : List (String × α)}
    (has : as.Pairwise fun a b => Text.bytes a.1 < Text.bytes b.1)
    (hbs : bs.Pairwise fun a b => Text.bytes a.1 < Text.bytes b.1)
    (h : ∀ a, a ∈ as ↔ a ∈ bs) : as = bs := by
  have hnodup : ∀ {l : List (String × α)},
      (l.Pairwise fun a b => Text.bytes a.1 < Text.bytes b.1) → l.Nodup := by
    intro l hl
    refine hl.imp fun {a b} hlt heq => ?_
    rw [heq] at hlt
    exact List.lt_irrefl _ hlt
  have hperm : as.Perm bs := (List.perm_ext_iff_of_nodup (hnodup has) (hnodup hbs)).mpr h
  refine hperm.eq_of_pairwise (fun a b _ _ hab hba => ?_) has hbs
  exact absurd hba (List.lt_asymm hab)

theorem IsCanonical.unique {x y z : Sexp} (hy : IsCanonical x y) (hz : IsCanonical x z) :
    y = z := by
  induction x using Sexp.induction generalizing y z with
  | atom text => cases hy
  | list members ih =>
    cases hy with
    | @intro cls name items ys attrs hsorted hattrs hgrouped hys =>
      cases hz with
      | @intro _ _ _ zs attrs' hsorted' hattrs' hgrouped' hzs =>
        have hmembers : ∀ x ∈ grouped cls items, ∀ {y z}, IsCanonical x y → IsCanonical x z →
            y = z := fun x hx =>
          ih x (List.mem_cons_of_mem _ (List.mem_cons_of_mem _ (mem_of_mem_grouped hx)))
        have hchildren : ys = zs :=
          List.right_unique_forall₂' (fun _ _ _ hy hz => hy.1 hy.2 hz.2)
            ((List.forall₂_and_left _ _).mpr ⟨hmembers, hys⟩)
            ((List.forall₂_and_left _ _).mpr ⟨hmembers, hzs⟩)
        have hattributes : attrs = attrs' :=
          eq_of_pairwise_bytes hsorted hsorted' fun attr => by rw [hattrs, hattrs']
        rw [hchildren, hattributes]

/-- **What is printed is what was read, in canonical order.** -/
theorem isCanonical_iff {x : Sexp} {t : Term} (h : ofSexp x = .ok t) (y : Sexp) :
    IsCanonical x y ↔ y = t.toSexp := by
  constructor
  · intro hy
    exact hy.unique (isCanonical_toSexp h)
  · rintro rfl
    exact isCanonical_toSexp h

/-- A subroutine with its items in no order, and with an attribute that is given twice. -/
def shuffled : Sexp :=
  .list [.atom "sub", .atom "f", attrSexp "y" none, .list [.atom "blk", .atom "b"],
    attrSexp "x" (some "1"), .list [.atom "arg", .atom "a", .atom "in"], attrSexp "x" (some "2")]

theorem isCanonical_shuffled :
    (∃ t, ofSexp shuffled = .ok t) ∧ ∀ y, IsCanonical shuffled y ↔
      y = .list [.atom "sub", .atom "f", attrSexp "x" (some "2"), attrSexp "y" none,
        .list [.atom "arg", .atom "a", .atom "in"], .list [.atom "blk", .atom "b"]] := by
  have hsexp : toSexp <$> ofSexp shuffled = .ok (.list [.atom "sub", .atom "f",
      attrSexp "x" (some "2"), attrSexp "y" none, .list [.atom "arg", .atom "a", .atom "in"],
      .list [.atom "blk", .atom "b"]]) := by cbv
  obtain ⟨t, ht, hcanonical⟩ := map_eq_ok.mp hsexp
  refine ⟨⟨t, ht⟩, fun y => ?_⟩
  rw [isCanonical_iff ht y, hcanonical]

end TermRules.Term

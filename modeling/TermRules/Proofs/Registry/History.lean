import Mathlib.Data.List.Induction
import Mathlib.Data.List.Nodup
import Mathlib.Data.List.Permutation
import TermRules.Proofs.Registry.Listing
import TermRules.Proofs.Registry.Resolution
import TermRules.Registry.Catalogue

/-!
# Histories of registrations

A namespace comes about by registrations, one after the other, of names with or without an argument
(`Namespace.ofHistory`). A name may be registered any number of times. What a name stands for with a
number of arguments is what its last registration with that number of arguments says
(`get?_ofHistory_eq_some_iff`), and all other registrations could be left out
(`get?_ofHistory_filter`). A registration is logged just if the name is registered before it with
the same number of arguments (`events_ofHistory`). All this is said by
`Namespace.last_registration_counts`.

If no name is registered twice with the same number of arguments, then the order of the
registrations does not matter: `get?_ofHistory_of_perm`. It may show in the order in which a table
keeps its entries, but not in the list of its names (`docs_ofHistory_of_perm`).
-/

namespace TermRules

/-- What may be registered for a name that takes the given number of arguments. -/
abbrev Arity.Make (φ : Type) : Arity → Type
  | .nullary => φ
  | .unary => String → Except String φ

/-- The registration of a name. -/
structure Namespace.Registration (φ : Type) where
  arity : Arity
  name : String
  doc : String
  make : arity.Make φ

namespace Namespace

variable {φ : Type}

/-- The table of the names that take the given number of arguments. -/
def table (ns : Namespace φ) : (arity : Arity) → Table (arity.Make φ)
  | .nullary => ns.nullary
  | .unary => ns.unary

/-- The namespace with a name registered. -/
def register (ns : Namespace φ) : Registration φ → Logged (Namespace φ)
  | ⟨.nullary, name, doc, make⟩ => ns.withNullary name doc make
  | ⟨.unary, name, doc, make⟩ => ns.withUnary name doc make

/-- The namespace that comes about by some registrations, one after the other. -/
def ofHistory (rs : List (Registration φ)) : Logged (Namespace φ) := rs.foldlM register empty

namespace Registration

/-- The name that is registered and the number of its arguments. -/
def key (r : Registration φ) : Arity × String := (r.arity, r.name)

/-- The registration is the last one of its name with its number of arguments. -/
def IsLastIn (r : Registration φ) (rs : List (Registration φ)) : Prop :=
  ∃ before after, rs = before ++ r :: after ∧ ∀ s ∈ after, s.key ≠ r.key

end Registration

/-! ## One registration -/

section Step

variable (ns : Namespace φ) (r : Registration φ)

theorem table_register_self :
    (ns.register r).value.table r.arity = (ns.table r.arity).insert r.name ⟨r.doc, r.make⟩ := by
  obtain ⟨_ | _, name, doc, make⟩ := r
  · rfl
  · rfl

theorem table_register_of_ne {arity : Arity} (h : r.arity ≠ arity) :
    (ns.register r).value.table arity = ns.table arity := by
  obtain ⟨_ | _, name, doc, make⟩ := r
  · cases arity
    · exact absurd rfl h
    · rfl
  · cases arity
    · rfl
    · exact absurd rfl h

theorem events_register :
    (ns.register r).events =
      if (ns.table r.arity).contains r.name then [.redefine r.name] else [] := by
  obtain ⟨_ | _, name, doc, make⟩ := r
  · exact List.append_nil _
  · exact List.append_nil _

variable {ns r} {arity : Arity} {name : String}

/-- A registration is all that counts for its own name and number of arguments, and it does not
count for any other. -/
theorem get?_register_eq_some_iff {entry : Entry (arity.Make φ)} :
    ((ns.register r).value.table arity).get? name = some entry ↔
      if r.key = (arity, name) then r = ⟨arity, name, entry.doc, entry.make⟩
      else (ns.table arity).get? name = some entry := by
  by_cases harity : r.arity = arity
  · subst harity
    rw [table_register_self, Table.get?_insert]
    by_cases hname : name = r.name
    · subst hname
      have hkey : r.key = (r.arity, r.name) := rfl
      rw [if_pos rfl, if_pos hkey, Option.some.injEq]
      constructor
      · rintro rfl
        rfl
      · intro h
        obtain ⟨-, -, hdoc, hmake⟩ := Registration.mk.inj h
        rw [hdoc, eq_of_heq hmake]
    · have hkey : r.key ≠ (r.arity, name) := fun h => hname (Prod.mk.inj h).2.symm
      rw [if_neg hname, if_neg hkey]
  · have hkey : r.key ≠ (arity, name) := fun h => harity (Prod.mk.inj h).1
    rw [table_register_of_ne ns r harity, if_neg hkey]

end Step

/-! ## The last registration of a name -/

section History

variable {rs : List (Registration φ)} {r : Registration φ} {arity : Arity} {name : String}

theorem ofHistory_append_singleton (rs : List (Registration φ)) (r : Registration φ) :
    ofHistory (rs ++ [r]) = ofHistory rs >>= fun ns => ns.register r := by
  rw [ofHistory, ofHistory, List.foldlM_append]
  simp only [List.foldlM_cons, List.foldlM_nil, bind_pure]

theorem isLastIn_append_singleton {s : Registration φ} :
    s.IsLastIn (rs ++ [r]) ↔ if r.key = s.key then r = s else s.IsLastIn rs := by
  constructor
  · rintro ⟨before, after, heq, hafter⟩
    rcases List.eq_nil_or_concat after with rfl | ⟨after, d, rfl⟩
    · obtain ⟨-, hr⟩ := List.append_inj' heq rfl
      obtain rfl := List.singleton_inj.mp hr
      rw [if_pos rfl]
    · rw [List.concat_eq_append, ← List.cons_append, ← List.append_assoc] at heq
      obtain ⟨rfl, hr⟩ := List.append_inj' heq rfl
      obtain rfl := List.singleton_inj.mp hr
      rw [if_neg (hafter r (by simp))]
      exact ⟨before, after, rfl, fun d hd => hafter d (by simp [hd])⟩
  · intro h
    split at h
    · subst h
      exact ⟨rs, [], rfl, by simp⟩
    next hkey =>
      obtain ⟨before, after, rfl, hafter⟩ := h
      refine ⟨before, after ++ [r], by simp, ?_⟩
      exact List.forall_mem_append.mpr ⟨hafter, by simpa using hkey⟩

/-- A name that is registered has a last registration. -/
theorem exists_isLastIn {s : Registration φ} (h : s ∈ rs) :
    ∃ r : Registration φ, r.key = s.key ∧ r.IsLastIn rs := by
  induction rs using List.reverseRecOn with
  | nil => cases h
  | append_singleton rs r ih =>
    by_cases hkey : r.key = s.key
    · exact ⟨r, hkey, rs, [], rfl, by simp⟩
    · have hs : s ∈ rs := by
        rcases List.mem_append.mp h with hs | hs
        · exact hs
        · exact absurd (congrArg Registration.key (List.mem_singleton.mp hs)).symm hkey
      obtain ⟨last, hlastKey, hlast⟩ := ih hs
      refine ⟨last, hlastKey, isLastIn_append_singleton.mpr ?_⟩
      rwa [if_neg (hlastKey ▸ hkey)]

theorem get?_ofHistory_eq_some_iff {entry : Entry (arity.Make φ)} :
    ((ofHistory rs).value.table arity).get? name = some entry ↔
      Registration.IsLastIn ⟨arity, name, entry.doc, entry.make⟩ rs := by
  induction rs using List.reverseRecOn with
  | nil =>
    refine iff_of_false ?_ ?_
    · cases arity
      · exact Option.some_ne_none entry ∘ Eq.symm
      · exact Option.some_ne_none entry ∘ Eq.symm
    · rintro ⟨before, after, h, -⟩
      simp at h
  | append_singleton rs r ih =>
    rw [ofHistory_append_singleton, Traced.value_bind, get?_register_eq_some_iff,
      isLastIn_append_singleton, ih]
    rfl

theorem mem_docs_ofHistory_iff {doc : String} :
    (name, doc) ∈ ((ofHistory rs).value.table arity).docs ↔
      ∃ make, Registration.IsLastIn ⟨arity, name, doc, make⟩ rs := by
  rw [Table.mem_docs_iff]
  simp only [get?_ofHistory_eq_some_iff]

/-- What a name stands for does not depend on registrations of other names, or with another number
of arguments. -/
theorem get?_ofHistory_filter (rs : List (Registration φ)) (arity : Arity) (name : String) :
    ((ofHistory (rs.filter (·.key = (arity, name)))).value.table arity).get? name =
      ((ofHistory rs).value.table arity).get? name := by
  induction rs using List.reverseRecOn with
  | nil => rfl
  | append_singleton rs r ih =>
    refine Option.ext fun entry => ?_
    rw [List.filter_append]
    by_cases hkey : r.key = (arity, name)
    · rw [List.filter_singleton, decide_eq_true hkey, cond_true, ofHistory_append_singleton,
        ofHistory_append_singleton, Traced.value_bind, Traced.value_bind,
        get?_register_eq_some_iff, get?_register_eq_some_iff, if_pos hkey, if_pos hkey]
    · rw [List.filter_singleton, decide_eq_false hkey, cond_false, List.append_nil, ih,
        ofHistory_append_singleton, Traced.value_bind, get?_register_eq_some_iff, if_neg hkey]

/-! ## The log -/

theorem contains_ofHistory_iff :
    ((ofHistory rs).value.table arity).contains name = true ↔ ∃ s ∈ rs, s.key = (arity, name) := by
  rw [Table.contains, Option.isSome_iff_exists]
  simp only [get?_ofHistory_eq_some_iff]
  constructor
  · rintro ⟨entry, before, after, rfl, -⟩
    exact ⟨_, List.mem_append_right _ List.mem_cons_self, rfl⟩
  · rintro ⟨s, hs, hkey⟩
    obtain ⟨⟨_, _, doc, make⟩, hlastKey, hlast⟩ := exists_isLastIn hs
    cases hlastKey.trans hkey
    exact ⟨⟨doc, make⟩, hlast⟩

/-- The log says of each registration whose name was registered before, with as many arguments, that
the name is registered again. -/
theorem events_ofHistory (rs : List (Registration φ)) :
    (ofHistory rs).events = rs.zipIdx.flatMap fun (e : Registration φ × Nat) =>
      if ∃ s ∈ rs.take e.2, s.key = e.1.key then [.redefine e.1.name] else [] := by
  induction rs using List.reverseRecOn with
  | nil => rfl
  | append_singleton rs r ih =>
    have hearlier : ∀ e ∈ rs.zipIdx, (rs ++ [r]).take e.2 = rs.take e.2 := fun e he =>
      List.take_append_of_le_length (Nat.le_of_lt (List.snd_lt_of_mem_zipIdx he))
    have hlog : ∀ e ∈ rs.zipIdx,
        (if ∃ s ∈ rs.take e.2, s.key = e.1.key then [Message.redefine e.1.name] else []) =
          if ∃ s ∈ (rs ++ [r]).take e.2, s.key = e.1.key then [.redefine e.1.name] else [] :=
      fun e he => by rw [hearlier e he]
    have hlast : (rs ++ [r]).take (0 + rs.length) = rs := by
      rw [Nat.zero_add, List.take_left]
    rw [ofHistory_append_singleton, Traced.events_bind, events_register, ih, List.zipIdx_append,
      List.flatMap_append, List.zipIdx_singleton, List.flatMap_singleton, hlast,
      List.flatMap_def, List.map_congr_left hlog, ← List.flatMap_def]
    simp only [contains_ofHistory_iff]
    rfl

/-! ## The order of registrations -/

/-- If no name is registered twice with the same number of arguments, then every registration is the
last one of its name. -/
theorem isLastIn_iff_mem (hdistinct : (rs.map Registration.key).Nodup) :
    r.IsLastIn rs ↔ r ∈ rs := by
  constructor
  · rintro ⟨before, after, rfl, -⟩
    exact List.mem_append_right _ List.mem_cons_self
  · intro h
    obtain ⟨before, after, rfl⟩ := List.append_of_mem h
    rw [List.map_append, List.map_cons, List.nodup_append, List.nodup_cons] at hdistinct
    refine ⟨before, after, rfl, fun s hs hkey => ?_⟩
    exact hdistinct.2.1.1 (hkey ▸ List.mem_map_of_mem hs)

variable {rs' : List (Registration φ)}

theorem get?_ofHistory_of_perm (hperm : rs.Perm rs')
    (hdistinct : (rs.map Registration.key).Nodup) (arity : Arity) (name : String) :
    ((ofHistory rs).value.table arity).get? name =
      ((ofHistory rs').value.table arity).get? name := by
  have hdistinct' : (rs'.map Registration.key).Nodup := (hperm.map _).nodup_iff.mp hdistinct
  refine Option.ext fun entry => ?_
  rw [get?_ofHistory_eq_some_iff, get?_ofHistory_eq_some_iff, isLastIn_iff_mem hdistinct,
    isLastIn_iff_mem hdistinct', hperm.mem_iff]

theorem docs_ofHistory_of_perm (hperm : rs.Perm rs')
    (hdistinct : (rs.map Registration.key).Nodup) (arity : Arity) :
    ((ofHistory rs).value.table arity).docs = ((ofHistory rs').value.table arity).docs :=
  Table.docs_eq_of_get? (get?_ofHistory_of_perm hperm hdistinct arity)

theorem catalogue_ofHistory_of_perm (hperm : rs.Perm rs')
    (hdistinct : (rs.map Registration.key).Nodup) :
    (ofHistory rs).value.catalogue = (ofHistory rs').value.catalogue := by
  have htable (arity : Arity) (arg : String) : ((ofHistory rs).value.table arity).catalogue arg =
      ((ofHistory rs').value.table arity).catalogue arg := by
    rw [Table.catalogue, Table.catalogue, docs_ofHistory_of_perm hperm hdistinct]
  exact congrArg₂ (· ++ ·) (htable .nullary "") (htable .unary " ARG")

end History

/-! ## What a history comes to -/

/-- The namespace has, of each name with each number of arguments, the documentation and the meaning
of the last of the registrations, and it lists the names in the order of their bytes. -/
structure KeepsLast (ns : Namespace φ) (rs : List (Registration φ)) : Prop where
  get?_iff : ∀ arity name (entry : Entry (arity.Make φ)), (ns.table arity).get? name = some entry ↔
    Registration.IsLastIn ⟨arity, name, entry.doc, entry.make⟩ rs
  lookup_iff : ∀ arity name make,
    lookup name arity (ns.table arity) (ns.table arity.other) = .ok make ↔
      ∃ doc, Registration.IsLastIn ⟨arity, name, doc, make⟩ rs
  ascending : ∀ arity, (ns.table arity).docs.Pairwise fun e f => Text.bytes e.1 < Text.bytes f.1
  mem_docs_iff : ∀ arity name doc, (name, doc) ∈ (ns.table arity).docs ↔
    ∃ make, Registration.IsLastIn ⟨arity, name, doc, make⟩ rs

theorem keepsLast_ofHistory (rs : List (Registration φ)) : (ofHistory rs).value.KeepsLast rs where
  get?_iff _ _ _ := get?_ofHistory_eq_some_iff
  lookup_iff arity name make := by
    rw [lookup_eq_ok_iff]
    simp only [get?_ofHistory_eq_some_iff]
    constructor
    · rintro ⟨entry, hlast, rfl⟩
      exact ⟨entry.doc, hlast⟩
    · rintro ⟨doc, hlast⟩
      exact ⟨⟨doc, make⟩, hlast, rfl⟩
  ascending _ := Table.pairwise_docs _
  mem_docs_iff _ _ _ := mem_docs_ofHistory_iff

/-- **The last registration counts.** A namespace has of each name, with each number of arguments,
what its last registration says, and this is the same without all other registrations. The log tells
of just those registrations before which the name was registered with the same number of arguments.
So histories that differ in the order of the registrations alone, and in which no name is registered
twice with the same number of arguments, lead to the same lists of names and to the same catalogue
of a registry. -/
theorem last_registration_counts (rs : List (Registration φ)) :
    (ofHistory rs).value.KeepsLast rs ∧
      (∀ arity name, ((ofHistory rs).value.table arity).get? name =
        ((ofHistory (rs.filter (·.key = (arity, name)))).value.table arity).get? name) ∧
      ((ofHistory rs).events = rs.zipIdx.flatMap fun (e : Registration φ × Nat) =>
        if ∃ s ∈ rs.take e.2, s.key = e.1.key then [.redefine e.1.name] else []) ∧
      (∀ rs', rs.Perm rs' → (rs.map Registration.key).Nodup → ∀ arity,
        ((ofHistory rs).value.table arity).docs = ((ofHistory rs').value.table arity).docs) ∧
      ∀ (ps ps' : List (Registration Test)) (as as' : List (Registration Edit)),
        ps.Perm ps' → (ps.map Registration.key).Nodup →
        as.Perm as' → (as.map Registration.key).Nodup →
        Registry.catalogue ⟨(ofHistory ps).value, (ofHistory as).value⟩ =
          Registry.catalogue ⟨(ofHistory ps').value, (ofHistory as').value⟩ := by
  refine ⟨keepsLast_ofHistory rs, fun arity name => (get?_ofHistory_filter rs arity name).symm,
    events_ofHistory rs, fun rs' hperm hdistinct arity => ?_, ?_⟩
  · exact docs_ofHistory_of_perm hperm hdistinct arity
  · intro ps ps' as as' hps hpsDistinct has hasDistinct
    rw [Registry.catalogue, Registry.catalogue, catalogue_ofHistory_of_perm hps hpsDistinct,
      catalogue_ofHistory_of_perm has hasDistinct]

/-- Registrations of one name with and without an argument, and of another name. -/
def testing : List (Registration Test) :=
  [⟨.unary, "named", "name is ARG", fun arg => .ok fun t _ => t.name == arg⟩,
    ⟨.nullary, "named", "name is not empty", fun t _ => t.name != ""⟩,
    ⟨.nullary, "is-root", "term is the root", fun _ v => v.isRoot⟩]

/-- Registrations of two actions. -/
def editing : List (Registration Edit) :=
  [⟨.unary, "rename", "set name to ARG", fun arg => .ok fun _ _ n => { n with name := arg }⟩,
    ⟨.nullary, "strip", "remove attributes", fun _ _ n => { n with attrs := .empty }⟩]

theorem last_registration_counts_testing :
    testing.Perm testing.reverse ∧ (testing.map Registration.key).Nodup ∧
      editing.Perm editing.reverse ∧ (editing.map Registration.key).Nodup ∧
      ((ofHistory testing.reverse).value.table .nullary).docs =
        [("is-root", "term is the root"), ("named", "name is not empty")] ∧
      ((ofHistory testing).value.table .nullary).docs =
        [("is-root", "term is the root"), ("named", "name is not empty")] ∧
      (ofHistory (testing ++ testing.take 1)).events = [.redefine "named"] ∧
      Registry.catalogue ⟨(ofHistory testing).value, (ofHistory editing).value⟩ =
        Registry.catalogue
          ⟨(ofHistory testing.reverse).value, (ofHistory editing.reverse).value⟩ := by
  have htesting : testing.Perm testing.reverse := testing.reverse_perm.symm
  have hediting : editing.Perm editing.reverse := editing.reverse_perm.symm
  have hdistinct : (testing.map Registration.key).Nodup := by decide
  have hdistinct' : (editing.map Registration.key).Nodup := by decide
  have hdocs : ((ofHistory testing).value.table .nullary).docs =
      [("is-root", "term is the root"), ("named", "name is not empty")] :=
    -- the name that is registered last comes first, as it does in the order of names
    List.mergeSort_of_pairwise (by decide)
  obtain ⟨-, -, -, hlists, hcatalogue⟩ := last_registration_counts testing
  obtain ⟨-, -, hlog, -, -⟩ := last_registration_counts (testing ++ testing.take 1)
  refine ⟨htesting, hdistinct, hediting, hdistinct', ?_, hdocs, hlog.trans (by decide), ?_⟩
  · rw [← hlists _ htesting hdistinct, hdocs]
  · exact hcatalogue _ _ _ _ htesting hdistinct hediting hdistinct'

end Namespace

end TermRules

import TermRules.Proofs.Registry.Resolution
import TermRules.Registry.Basic

/-!
# Extensions of a registry

Further names may be registered in a registry (`Registry.extend`). If they are new in the tables
that they go to, all entries stay as they are, and there are others only for the new names
(`Registry.extends_extend`). So every expression that has a meaning keeps it, since the other table
and the other namespace never give a name its meaning. An expression that has none may get one, but
only if its name was missing and is one of the new ones (`Namespace.Extends.resolve`).
-/

namespace TermRules

/-! ## Registrations -/

/-- The registration of a name. -/
inductive Registration : Type 1
  /-- A predicate that takes no argument. -/
  | predicate (name doc : String) (test : Test)
  /-- A predicate that takes an argument. -/
  | predicateOf {α : Type} (name doc : String) (read : String → Except String α) (test : α → Test)
  /-- An action that takes no argument. -/
  | action (name doc : String) (edit : Edit)
  /-- An action that takes an argument. -/
  | actionOf {α : Type} (name doc : String) (read : String → Except String α) (edit : α → Edit)

namespace Registration

/-- The name that is registered. -/
def name : Registration → String
  | predicate name .. | predicateOf name .. | action name .. | actionOf name .. => name

/-- The registry with the name registered. -/
def register (reg : Registry) : Registration → Logged Registry
  | predicate name doc test => reg.withPredicate name doc test
  | predicateOf name doc read test => reg.withPredicateOf name doc read test
  | action name doc edit => reg.withAction name doc edit
  | actionOf name doc read edit => reg.withActionOf name doc read edit

/-- The name is not in the table that it goes to. -/
def IsNewIn (reg : Registry) : Registration → Prop
  | predicate name .. => reg.predicates.nullary.get? name = none
  | predicateOf name .. => reg.predicates.unary.get? name = none
  | action name .. => reg.actions.nullary.get? name = none
  | actionOf name .. => reg.actions.unary.get? name = none

end Registration

/-- The registry with further names, registered one after the other. -/
def Registry.extend (reg : Registry) (entries : List Registration) : Logged Registry :=
  entries.foldlM Registration.register reg

/-! ## Extensions -/

variable {names : List String}

/-- The table `t'` has the entries of `t`, and others at most for the given names. -/
structure Table.Extends {κ : Type} (names : List String) (t t' : Table κ) : Prop where
  keeps : ∀ {name entry}, t.get? name = some entry → t'.get? name = some entry
  adds : ∀ {name}, name ∉ names → t'.get? name = t.get? name

namespace Table.Extends

variable {κ : Type} {t t' : Table κ}

theorem refl (names : List String) (t : Table κ) : Extends names t t := ⟨id, fun _ => rfl⟩

theorem register (h : Extends names t t') {name : String} (hnew : t.get? name = none)
    (hname : name ∈ names) (doc : String) (make : κ) :
    Extends names t (t'.register name doc make).value where
  keeps {l entry} hl := by
    have hne : l ≠ name := by
      rintro rfl
      rw [hnew] at hl
      cases hl
    rw [Table.register, Table.get?_insert, if_neg hne]
    exact h.keeps hl
  adds {l} hl := by
    have hne : l ≠ name := fun e => hl (e ▸ hname)
    rw [Table.register, Table.get?_insert, if_neg hne]
    exact h.adds hl

end Table.Extends

/-- Both tables of `ns'` extend those of `ns`. -/
structure Namespace.Extends {φ : Type} (names : List String) (ns ns' : Namespace φ) : Prop where
  nullary : Table.Extends names ns.nullary ns'.nullary
  unary : Table.Extends names ns.unary ns'.unary

theorem Namespace.Extends.refl {φ : Type} (names : List String) (ns : Namespace φ) :
    Extends names ns ns :=
  ⟨.refl names _, .refl names _⟩

/-- Both namespaces of `reg'` extend those of `reg`. -/
structure Registry.Extends (names : List String) (reg reg' : Registry) : Prop where
  predicates : Namespace.Extends names reg.predicates reg'.predicates
  actions : Namespace.Extends names reg.actions reg'.actions

namespace Registry

variable {reg reg' : Registry}

theorem Extends.refl (names : List String) (reg : Registry) : Extends names reg reg :=
  ⟨.refl names _, .refl names _⟩

/-- Extensions stay extensions with a further name that the first registry does not have. -/
theorem Extends.register (h : Extends names reg reg') {r : Registration} (hnew : r.IsNewIn reg)
    (hname : r.name ∈ names) : Extends names reg (r.register reg').value := by
  obtain ⟨⟨hp₀, hp₁⟩, ⟨ha₀, ha₁⟩⟩ := h
  cases r with
  | predicate name doc test => exact ⟨⟨hp₀.register hnew hname doc _, hp₁⟩, ⟨ha₀, ha₁⟩⟩
  | predicateOf name doc read test => exact ⟨⟨hp₀, hp₁.register hnew hname doc _⟩, ⟨ha₀, ha₁⟩⟩
  | action name doc edit => exact ⟨⟨hp₀, hp₁⟩, ⟨ha₀.register hnew hname doc _, ha₁⟩⟩
  | actionOf name doc read edit => exact ⟨⟨hp₀, hp₁⟩, ⟨ha₀, ha₁.register hnew hname doc _⟩⟩

theorem Extends.extend (h : Extends names reg reg') {entries : List Registration}
    (hnew : ∀ r ∈ entries, r.IsNewIn reg) (hnames : ∀ r ∈ entries, r.name ∈ names) :
    Extends names reg (reg'.extend entries).value := by
  induction entries generalizing reg' with
  | nil => exact h
  | cons r entries ih =>
    obtain ⟨hr, hentries⟩ := List.forall_mem_cons.mp hnew
    obtain ⟨hrname, hnames⟩ := List.forall_mem_cons.mp hnames
    rw [extend, List.foldlM_cons, Traced.value_bind]
    exact ih (h.register hr hrname) hentries hnames

/-- A registry is extended by names that it does not have in the tables that they go to. -/
theorem extends_extend {entries : List Registration} (hnew : ∀ r ∈ entries, r.IsNewIn reg) :
    Extends (entries.map Registration.name) reg (reg.extend entries).value :=
  (Extends.refl _ reg).extend hnew fun _ => List.mem_map_of_mem

end Registry

/-! ## Resolution -/

/-- The name that is not known, or not with the right number of arguments. -/
def CompileError.missing? : CompileError → Option String
  | unbound name | arity name _ => some name
  | sexp _ | shape .. | argument .. => none

/-- The outcome `y` is the outcome `x`, unless `x` fails since one of the names is missing. -/
inductive Persists (names : List String) {α : Type} :
    Except CompileError α → Except CompileError α → Prop
  | same (x : Except CompileError α) : Persists names x x
  | missing {err : CompileError} {name : String} (h : err.missing? = some name)
      (hname : name ∈ names) (y : Except CompileError α) : Persists names (.error err) y

namespace Namespace

variable {φ : Type} {ns ns' : Namespace φ} {e : Expr}

theorem Extends.means (h : Extends names ns ns') {meaning : φ} (he : ns.Means e meaning) :
    ns'.Means e meaning := by
  cases he with
  | nullary hnullary => exact .nullary (h.nullary.keeps hnullary)
  | unary hunary hmake => exact .unary (h.unary.keeps hunary) hmake

theorem Extends.rejects (h : Extends names ns ns') {err : CompileError} (he : ns.Rejects e err) :
    ns'.Rejects e err ∨ ∃ name ∈ names, err.missing? = some name := by
  by_cases hmissing : ∃ name ∈ names, err.missing? = some name
  · exact .inr hmissing
  · left
    have hother : ∀ {name}, err.missing? = some name → name ∉ names :=
      fun hname hmem => hmissing ⟨_, hmem, hname⟩
    cases he with
    | unbound hnullary hunary =>
      exact .unbound ((h.nullary.adds (hother rfl)).trans hnullary)
        ((h.unary.adds (hother rfl)).trans hunary)
    | takesOne hnullary hunary =>
      exact .takesOne ((h.nullary.adds (hother rfl)).trans hnullary) (h.unary.keeps hunary)
    | takesNone hunary hnullary =>
      exact .takesNone ((h.unary.adds (hother rfl)).trans hunary) (h.nullary.keeps hnullary)
    | argument hunary hmake => exact .argument (h.unary.keeps hunary) hmake

/-- An expression has in an extension the meaning that it had, or none for the same reason, unless
its name was missing. -/
theorem Extends.resolve (h : Extends names ns ns') (e : Expr) :
    Persists names (ns.resolve e) (ns'.resolve e) := by
  cases he : ns.resolve e with
  | ok meaning =>
    rw [resolve_eq_ok_iff.mpr (h.means (resolve_eq_ok_iff.mp he))]
    exact .same _
  | error err =>
    obtain he' | ⟨name, hname, hmissing⟩ := h.rejects (resolve_eq_error_iff.mp he)
    · rw [resolve_eq_error_iff.mpr he']
      exact .same _
    · exact .missing hmissing hname _

end Namespace

end TermRules

import TermRules.Proofs.Outcome
import TermRules.Registry.Namespace

/-!
# What expressions mean

Which meaning an expression has in a namespace (`Namespace.Means`) and why it may have none
(`Namespace.Rejects`) is said here in terms of the entries of the two tables. To resolve an
expression is to find the one or the other: `Namespace.resolve_eq_ok_iff` and
`Namespace.resolve_eq_error_iff`.
-/

namespace TermRules

namespace Namespace

variable {φ κ μ : Type}

/-! ## Names in two tables -/

theorem lookup_eq_ok_iff {name : String} {expected : Arity} {same : Table κ} {other : Table μ}
    {make : κ} :
    lookup name expected same other = .ok make ↔
      ∃ entry, same.get? name = some entry ∧ entry.make = make := by
  unfold lookup
  cases same.get? name with
  | some entry => simp
  | none =>
    simp only [reduceCtorEq, false_and, exists_false, iff_false]
    split <;> simp

theorem lookup_eq_error_iff {name : String} {expected : Arity} {same : Table κ}
    {other : Table μ} {err : CompileError} :
    lookup name expected same other = .error err ↔
      same.get? name = none ∧
        ((∃ entry, other.get? name = some entry) ∧ err = .arity name expected.other ∨
          other.get? name = none ∧ err = .unbound name) := by
  unfold lookup
  cases same.get? name with
  | some entry => simp
  | none =>
    rw [Table.contains]
    cases other.get? name <;> simp [eq_comm]

/-! ## Meanings -/

/-- The meaning of an expression: the one that its name has in the table of its arity, applied to
the argument if there is one. -/
inductive Means (ns : Namespace φ) : Expr → φ → Prop
  | nullary {name : String} {entry : Entry φ} (h : ns.nullary.get? name = some entry) :
      ns.Means ⟨name, none⟩ entry.make
  | unary {name arg : String} {entry : Entry (String → Except String φ)} {meaning : φ}
      (h : ns.unary.get? name = some entry) (hmake : entry.make arg = .ok meaning) :
      ns.Means ⟨name, some arg⟩ meaning

/-- Why an expression has no meaning. -/
inductive Rejects (ns : Namespace φ) : Expr → CompileError → Prop
  /-- The name is in neither table. -/
  | unbound {name : String} {arg : Option String} (hnullary : ns.nullary.get? name = none)
      (hunary : ns.unary.get? name = none) : ns.Rejects ⟨name, arg⟩ (.unbound name)
  /-- There is no argument, and the name is only in the table of names with an argument. -/
  | takesOne {name : String} {entry : Entry (String → Except String φ)}
      (hnullary : ns.nullary.get? name = none) (hunary : ns.unary.get? name = some entry) :
      ns.Rejects ⟨name, none⟩ (.arity name .unary)
  /-- There is an argument, and the name is only in the table of names without one. -/
  | takesNone {name arg : String} {entry : Entry φ} (hunary : ns.unary.get? name = none)
      (hnullary : ns.nullary.get? name = some entry) :
      ns.Rejects ⟨name, some arg⟩ (.arity name .nullary)
  /-- The name does not take this argument. -/
  | argument {name arg reason : String} {entry : Entry (String → Except String φ)}
      (h : ns.unary.get? name = some entry) (hmake : entry.make arg = .error reason) :
      ns.Rejects ⟨name, some arg⟩ (.argument name arg reason)

variable {ns : Namespace φ} {e : Expr} {meaning : φ} {err : CompileError}

theorem resolve_none (name : String) :
    ns.resolve ⟨name, none⟩ = lookup name .nullary ns.nullary ns.unary := rfl

theorem resolve_some (name arg : String) :
    ns.resolve ⟨name, some arg⟩ = lookup name .unary ns.unary ns.nullary >>= fun make =>
      (make arg).mapError (.argument name arg) := rfl

theorem resolve_eq_ok_iff : ns.resolve e = .ok meaning ↔ ns.Means e meaning := by
  obtain ⟨name, arg⟩ := e
  cases arg with
  | none =>
    rw [resolve_none, lookup_eq_ok_iff]
    constructor
    · rintro ⟨entry, h, rfl⟩
      exact .nullary h
    · rintro ⟨h⟩
      exact ⟨_, h, rfl⟩
  | some arg =>
    rw [resolve_some, bind_eq_ok]
    simp only [lookup_eq_ok_iff, mapError_eq_ok]
    constructor
    · rintro ⟨-, ⟨entry, h, rfl⟩, hmake⟩
      exact .unary h hmake
    · rintro (_ | ⟨h, hmake⟩)
      exact ⟨_, ⟨_, h, rfl⟩, hmake⟩

theorem resolve_eq_error_iff : ns.resolve e = .error err ↔ ns.Rejects e err := by
  obtain ⟨name, arg⟩ := e
  cases arg with
  | none =>
    rw [resolve_none, lookup_eq_error_iff]
    constructor
    · rintro ⟨hnullary, ⟨⟨_, hunary⟩, rfl⟩ | ⟨hunary, rfl⟩⟩
      · exact .takesOne hnullary hunary
      · exact .unbound hnullary hunary
    · intro h
      cases h with
      | unbound hnullary hunary => exact ⟨hnullary, .inr ⟨hunary, rfl⟩⟩
      | takesOne hnullary hunary => exact ⟨hnullary, .inl ⟨⟨_, hunary⟩, rfl⟩⟩
  | some arg =>
    rw [resolve_some, bind_eq_error]
    simp only [lookup_eq_ok_iff, lookup_eq_error_iff, mapError_eq_error]
    constructor
    · rintro (⟨hunary, ⟨⟨_, hnullary⟩, rfl⟩ | ⟨hnullary, rfl⟩⟩ |
        ⟨-, ⟨entry, h, rfl⟩, reason, hmake, rfl⟩)
      · exact .takesNone hunary hnullary
      · exact .unbound hnullary hunary
      · exact .argument h hmake
    · intro h
      cases h with
      | unbound hnullary hunary => exact .inl ⟨hunary, .inr ⟨hnullary, rfl⟩⟩
      | takesNone hunary hnullary => exact .inl ⟨hunary, .inl ⟨⟨_, hnullary⟩, rfl⟩⟩
      | argument h hmake => exact .inr ⟨_, ⟨_, h, rfl⟩, _, hmake, rfl⟩

end Namespace

end TermRules

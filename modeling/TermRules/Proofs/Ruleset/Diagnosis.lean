import TermRules.Proofs.Expr.Units
import TermRules.Proofs.Registry.Resolution
import TermRules.Proofs.Ruleset.Compilation

/-!
# What S-expressions denote, and what is wrong with those that denote nothing

The predicates or the actions of a rule are expressions in groups. A namespace gives them meanings
if all units are expressions and all expressions have a meaning (`Namespace.Denotes`). Otherwise
there is one thing that is wrong with them (`Namespace.Fails`): the first ill-shaped unit, wherever
it stands, and only without such a unit the first expression that has no meaning.

A rule is a pair of these, and what is wrong with its predicates comes before what is wrong with its
actions (`Rule.Fails`). Compilation gives the rule that an S-expression denotes and otherwise tells
what is wrong with it: `Rule.outcome_compile_iff`.
-/

namespace TermRules

/-! ## Namespaces -/

namespace Namespace

variable {φ : Type}

/-- An S-expression consists of groups and of the given expressions, which have the given
meanings. -/
structure Denotes (ns : Namespace φ) (x : Sexp) (bs : List (Bound φ)) : Prop where
  units : x.units = bs.map fun b => b.expr.toSexp
  means : ∀ b ∈ bs, ns.Means b.expr b.meaning

/-- What is wrong with an S-expression that is to consist of groups and of expressions that have a
meaning. -/
inductive Fails (ns : Namespace φ) (x : Sexp) : CompileError → Prop
  /-- A unit is no expression, and those before it are. -/
  | shape {before : List Expr} {u : Sexp} {after : List Sexp}
      (hunits : x.units = before.map Expr.toSexp ++ u :: after)
      (hu : ∀ e : Expr, u ≠ e.toSexp) : ns.Fails x (.shape (Expr.expected u) u)
  /-- All units are expressions. One of them has no meaning, and those before it have. -/
  | meaning {before after : List Expr} {e : Expr} {err : CompileError}
      (hunits : x.units = (before ++ e :: after).map Expr.toSexp)
      (hbefore : ∀ d ∈ before, ∃ meaning, ns.Means d meaning) (h : ns.Rejects e err) :
      ns.Fails x err

/-- An expression with the meaning that it resolves to. -/
def bound (ns : Namespace φ) (e : Expr) : Except CompileError (Bound φ) :=
  return ⟨e, ← ns.resolve e⟩

/-- The units are read first, and then the expressions that they are get their meanings. -/
theorem outcome_compile_eq_units (ns : Namespace φ) (x : Sexp) :
    (ns.compile x).outcome = x.units.mapM Expr.ofUnit >>= List.mapM ns.bound := by
  rw [outcome_compile, ← outcome_flatten, Flattening.outcome]
  cases (flatten x).fault <;> rfl

variable {ns : Namespace φ} {x : Sexp} {bs : List (Bound φ)} {err : CompileError}

theorem bound_eq_ok_iff {e : Expr} {b : Bound φ} :
    ns.bound e = .ok b ↔ e = b.expr ∧ ns.Means b.expr b.meaning := by
  unfold bound
  rw [bind_eq_ok]
  simp only [resolve_eq_ok_iff]
  constructor
  · rintro ⟨meaning, h, hb⟩
    cases hb
    exact ⟨rfl, h⟩
  · rintro ⟨rfl, h⟩
    exact ⟨b.meaning, h, rfl⟩

theorem bound_eq_error_iff {e : Expr} : ns.bound e = .error err ↔ ns.Rejects e err := by
  unfold bound
  rw [bind_eq_error, resolve_eq_error_iff]
  constructor
  · rintro (h | ⟨_, -, h⟩)
    · exact h
    · cases h
  · exact .inl

theorem mapM_bound_eq_ok_iff {es : List Expr} :
    es.mapM ns.bound = .ok bs ↔
      es = bs.map Bound.expr ∧ ∀ b ∈ bs, ns.Means b.expr b.meaning :=
  mapM_eq_ok_iff (P := fun b : Bound φ => ns.Means b.expr b.meaning) fun _ _ => bound_eq_ok_iff

theorem mapM_bound_eq_error_iff {es : List Expr} :
    es.mapM ns.bound = .error err ↔ ∃ before e after, es = before ++ e :: after ∧
      (∀ d ∈ before, ∃ meaning, ns.Means d meaning) ∧ ns.Rejects e err := by
  have hmeans : ∀ d, (∃ b, ns.bound d = .ok b) ↔ ∃ meaning, ns.Means d meaning := by
    intro d
    simp only [bound_eq_ok_iff]
    exact ⟨fun ⟨b, hd, h⟩ => ⟨b.meaning, hd ▸ h⟩, fun ⟨meaning, h⟩ => ⟨⟨d, meaning⟩, rfl, h⟩⟩
  simp only [mapM_eq_error_iff, hmeans, bound_eq_error_iff]

theorem outcome_compile_eq_ok_iff : (ns.compile x).outcome = .ok bs ↔ ns.Denotes x bs := by
  have hmap : bs.map (fun b => b.expr.toSexp) = (bs.map Bound.expr).map Expr.toSexp := by
    rw [List.map_map]
    rfl
  rw [outcome_compile_eq_units, bind_eq_ok]
  simp only [Expr.mapM_ofUnit_eq_ok_iff, mapM_bound_eq_ok_iff]
  constructor
  · rintro ⟨_, hunits, rfl, hmeans⟩
    exact ⟨hunits.trans hmap.symm, hmeans⟩
  · rintro ⟨hunits, hmeans⟩
    exact ⟨_, hunits.trans hmap, rfl, hmeans⟩

theorem outcome_compile_eq_error_iff : (ns.compile x).outcome = .error err ↔ ns.Fails x err := by
  rw [outcome_compile_eq_units, bind_eq_error]
  simp only [Expr.mapM_ofUnit_eq_error_iff, Expr.mapM_ofUnit_eq_ok_iff, mapM_bound_eq_error_iff]
  constructor
  · rintro (⟨_, _, _, hunits, hu, rfl⟩ | ⟨_, hunits, _, _, _, rfl, hbefore, h⟩)
    · exact .shape hunits hu
    · exact .meaning hunits hbefore h
  · intro h
    cases h with
    | shape hunits hu => exact .inl ⟨_, _, _, hunits, hu, rfl⟩
    | meaning hunits hbefore h => exact .inr ⟨_, hunits, _, _, _, rfl, hbefore, h⟩

end Namespace

/-! ## Rules -/

namespace Rule

/-- The rule that an S-expression denotes: its two members denote the predicates and the
actions. -/
inductive DenotedBy (reg : Registry) : Sexp → Rule → Prop
  | pair {predicates actions : Sexp} {r : Rule}
      (hpredicates : reg.predicates.Denotes predicates r.predicates)
      (hactions : reg.actions.Denotes actions r.actions) :
      DenotedBy reg (.list [predicates, actions]) r

/-- What is wrong with an S-expression that is to denote a rule. -/
inductive Fails (reg : Registry) : Sexp → CompileError → Prop
  /-- It is no list of two members. -/
  | pair {x : Sexp} (h : ∀ predicates actions, x ≠ .list [predicates, actions]) :
      Fails reg x (.shape .rule x)
  /-- Something is wrong with the predicates. -/
  | predicates {predicates actions : Sexp} {err : CompileError}
      (h : reg.predicates.Fails predicates err) : Fails reg (.list [predicates, actions]) err
  /-- Nothing is wrong with the predicates, but something with the actions. -/
  | actions {predicates actions : Sexp} {ps : List Predicate} {err : CompileError}
      (hpredicates : reg.predicates.Denotes predicates ps) (h : reg.actions.Fails actions err) :
      Fails reg (.list [predicates, actions]) err

variable {reg : Registry} {x predicates actions : Sexp} {r : Rule} {err : CompileError}

theorem outcome_compile_pair (reg : Registry) (predicates actions : Sexp) :
    (compile reg (.list [predicates, actions])).outcome =
      (reg.predicates.compile predicates).outcome >>= fun ps =>
        (reg.actions.compile actions).outcome >>= fun as => .ok ⟨ps, as⟩ := by
  simp only [compile, Compilation.outcome_bind]
  rfl

/-- The predicates are read and get their meanings, and then the actions. -/
theorem outcome_compile_eq_units (reg : Registry) (predicates actions : Sexp) :
    (compile reg (.list [predicates, actions])).outcome =
      predicates.units.mapM Expr.ofUnit >>= List.mapM reg.predicates.bound >>= fun ps =>
        actions.units.mapM Expr.ofUnit >>= List.mapM reg.actions.bound >>= fun as =>
          .ok ⟨ps, as⟩ := by
  rw [outcome_compile_pair, Namespace.outcome_compile_eq_units, Namespace.outcome_compile_eq_units]

theorem outcome_compile_of_ne (h : ∀ predicates actions, x ≠ .list [predicates, actions]) :
    (compile reg x).outcome = .error (.shape .rule x) := by
  unfold compile
  split
  next => exact absurd rfl (h _ _)
  next => rfl

theorem pair_or (x : Sexp) :
    (∃ predicates actions, x = .list [predicates, actions]) ∨
      ∀ predicates actions, x ≠ .list [predicates, actions] := by
  by_cases h : ∃ predicates actions, x = .list [predicates, actions]
  · exact .inl h
  · exact .inr fun predicates actions hx => h ⟨predicates, actions, hx⟩

theorem outcome_compile_eq_ok_iff : (compile reg x).outcome = .ok r ↔ DenotedBy reg x r := by
  obtain ⟨predicates, actions, rfl⟩ | hne := pair_or x
  · rw [outcome_compile_pair, bind_eq_ok]
    simp only [bind_eq_ok, Namespace.outcome_compile_eq_ok_iff]
    constructor
    · rintro ⟨ps, hps, as, has, h⟩
      cases h
      exact ⟨hps, has⟩
    · rintro ⟨hps, has⟩
      exact ⟨_, hps, _, has, rfl⟩
  · rw [outcome_compile_of_ne hne]
    refine iff_of_false nofun ?_
    rintro ⟨⟩
    exact hne _ _ rfl

theorem outcome_compile_eq_error_iff : (compile reg x).outcome = .error err ↔ Fails reg x err := by
  obtain ⟨predicates, actions, rfl⟩ | hne := pair_or x
  · rw [outcome_compile_pair, bind_eq_error]
    simp only [bind_eq_error, Namespace.outcome_compile_eq_ok_iff,
      Namespace.outcome_compile_eq_error_iff]
    constructor
    · rintro (h | ⟨ps, hps, h | ⟨_, -, h⟩⟩)
      · exact .predicates h
      · exact .actions hps h
      · cases h
    · intro h
      cases h with
      | pair h => exact absurd rfl (h _ _)
      | predicates h => exact .inl h
      | actions hps h => exact .inr ⟨_, hps, .inl h⟩
  · rw [outcome_compile_of_ne hne]
    constructor
    · rintro ⟨⟩
      exact .pair hne
    · intro h
      cases h with
      | pair => rfl
      | predicates => exact absurd rfl (hne _ _)
      | actions => exact absurd rfl (hne _ _)

/-- An ill-shaped unit comes before a predicate that is not known. -/
example : (compile .empty (.list [.list [.list [.atom "a"], .atom "b"], .list []])).outcome =
    .error (.shape .exprs (.atom "b")) := by cbv

end Rule

end TermRules

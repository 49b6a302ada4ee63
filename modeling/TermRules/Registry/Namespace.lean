import TermRules.Compilation
import TermRules.Expr.Flatten
import TermRules.Registry.Table

/-!
# Namespaces

A namespace gives names their meaning, of a type `φ`: predicates or actions. It has two tables,
one for names without an argument and one for names with an argument, and one name may be in both.

* `Namespace.withNullary` and `Namespace.withUnary` register a name.
* `Namespace.resolve` gives the meaning of an expression.
* `Namespace.compile` gives the meanings of all expressions in an S-expression.
-/

namespace TermRules

/-- The meanings of names, with and without an argument. The meaning of a name with an argument
is a function, which may reject an argument for a reason. -/
structure Namespace (φ : Type) where
  nullary : Table φ
  unary : Table (String → Except String φ)

/-- An expression with its meaning. -/
structure Bound (φ : Type) where
  expr : Expr
  meaning : φ

namespace Namespace

variable {φ ψ : Type}

/-- The namespace without names. -/
def empty : Namespace φ := ⟨.empty, .empty⟩

/-- Registers a name that takes no argument. -/
def withNullary (ns : Namespace φ) (name doc : String) (make : φ) : Logged (Namespace φ) := do
  return { ns with nullary := ← ns.nullary.register name doc make }

/-- Registers a name that takes an argument. -/
def withUnary (ns : Namespace φ) (name doc : String) (make : String → Except String φ) :
    Logged (Namespace φ) := do
  return { ns with unary := ← ns.unary.register name doc make }

/-- The namespace with `f` applied to every meaning. -/
def map (f : φ → ψ) (ns : Namespace φ) : Namespace ψ where
  nullary := ns.nullary.map fun e => ⟨e.doc, f e.make⟩
  unary := ns.unary.map fun e => ⟨e.doc, fun arg => (e.make arg).map f⟩

/-- What a name stands for in the table `same` of the arity `expected`. The table of the other
arity only tells the two reasons of failure apart. -/
def lookup {κ μ : Type} (name : String) (expected : Arity) (same : Table κ) (other : Table μ) :
    Except CompileError κ :=
  match same.get? name with
  | some entry => .ok entry.make
  | none =>
    if other.contains name then .error (.arity name expected.other) else .error (.unbound name)

/-- The meaning of an expression. -/
def resolve (ns : Namespace φ) (e : Expr) : Except CompileError φ :=
  match e.arg with
  | none => lookup e.name .nullary ns.nullary ns.unary
  | some arg => do
    let make ← lookup e.name .unary ns.unary ns.nullary
    (make arg).mapError (.argument e.name arg)

/-- The expressions in an S-expression with their meanings. The shape of all expressions is
checked before the first is resolved. -/
def compile (ns : Namespace φ) (x : Sexp) : Compilation (List (Bound φ)) := do
  let flat := flatten x
  if let some fault := flat.fault then throw fault
  Compilation.log (.resolve flat.exprs.size)
  flat.exprs.toList.mapM fun e => return ⟨e, ← Compilation.ofExcept (ns.resolve e)⟩

end Namespace

end TermRules

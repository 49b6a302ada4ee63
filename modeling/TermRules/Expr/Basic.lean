import TermRules.Sexp.Printer

/-!
# Expressions

An expression is a name, `(name)`, or a name with an argument, `(name arg)`. It denotes a predicate
or an action.
-/

namespace TermRules

/-- The number of arguments that a name takes. -/
inductive Arity
  | nullary
  | unary
  deriving DecidableEq, Repr

namespace Arity

/-- The other number of arguments. -/
def other : Arity → Arity
  | nullary => unary
  | unary => nullary

/-- The arity in words. -/
def text : Arity → String
  | nullary => "no argument"
  | unary => "one argument"

end Arity

/-- A name, possibly with an argument. -/
structure Expr where
  name : String
  arg : Option String
  deriving DecidableEq, Repr

namespace Expr

/-- The number of arguments in the expression. -/
def arity (e : Expr) : Arity :=
  match e.arg with
  | none => .nullary
  | some _ => .unary

/-- The expression as an S-expression. -/
def toSexp (e : Expr) : Sexp := .list (.atom e.name :: (e.arg.map .atom).toList)

/-- The written form. -/
def print (e : Expr) : String := e.toSexp.print

instance : ToString Expr := ⟨print⟩

end Expr

end TermRules

import TermRules.Expr.Basic
import TermRules.Sexp.Reader

/-!
# Errors in rules
-/

namespace TermRules

/-- The shapes that a part of a rule may be expected to have. -/
inductive Shape
  | expr
  | exprs
  | rule
  deriving DecidableEq, Repr

/-- The shape in words. -/
def Shape.text : Shape → String
  | expr => "`(id)` or `(id arg)`"
  | exprs => "an expression or a list of expressions"
  | rule => "a pair of predicate-list and action-list"

/-- Why a text is not a sequence of rules. -/
inductive CompileError
  /-- The text does not consist of S-expressions. -/
  | sexp (e : Sexp.ReadError)
  /-- An S-expression does not have the expected shape. -/
  | shape (expected : Shape) (found : Sexp)
  /-- A name is not known. -/
  | unbound (name : String)
  /-- A name is known, but only with the given number of arguments. -/
  | arity (name : String) (takes : Arity)
  /-- A name does not take an argument, for the given reason. -/
  | argument (name arg reason : String)
  deriving DecidableEq

namespace CompileError

/-- Kinds of errors. -/
inductive Kind
  | form
  | unbound
  | arity
  | argument
  deriving DecidableEq, Repr

/-- The kind of an error. -/
def kind : CompileError → Kind
  | sexp _ | shape .. => .form
  | unbound _ => .unbound
  | arity .. => .arity
  | argument .. => .argument

/-- The text of the error. -/
def message : CompileError → String
  | sexp e => s!"syntax error: {e.message}"
  | shape expected found => s!"syntax error: expected {expected.text}, found `{found.print}`"
  | unbound name => s!"unbound name `{name}`"
  | arity name takes => s!"arity error: `{name}` takes {takes.text}"
  | argument name arg reason => s!"malformed argument `{arg}` for `{name}`: {reason}"

end CompileError

end TermRules
